import Sentential.CommandLine.Run
import Sentential.Proofs.Encoding
import Sentential.Proofs.Tandem

/-!
# The stream of printed sentences

A seed leads to a series of documents, whatever is printed of them and whatever is logged. A run of
the command line where nobody is asked prints the documents of the series one after another, each
with the separator behind it, up to the first that cannot be made. So a run that prints more
sentences begins with what a shorter one prints.
-/
namespace Sentential

theorem Transcript.text_append (t : Transcript) (text : String) :
    (t.append text).text = t.text ++ text := by
  simp [Transcript.text, Transcript.append, String.join_append]

namespace Node

variable {ρ : Type}

mutual

/-- The text of a document in which nothing is deferred. -/
def sentence : Node ρ → String
  | literal text => text
  | deferred _ _ => ""
  | tree _ children => sentenceAll children

def sentenceAll : List (Node ρ) → String
  | [] => ""
  | n :: rest => sentence n ++ sentenceAll rest

end

section Traverse

variable {ω : Type} {p : Part ω Transcript} {invoke : Spot ρ → Act ω Unit}

mutual

/-- Where deferred nodes write nothing, just the text of the document is written. -/
theorem traverse_transcript (nothing : ∀ spot, invoke spot = pure ()) (n : Node ρ)
    (above : List (Node ρ)) (w : ω) :
    ∃ t, n.traverse invoke (.transcript p) above w = (.value (), p.set t w) ∧
      t.text = (p.get w).text ++ n.sentence :=
  match n with
  | literal text => ⟨_, rfl, Transcript.text_append _ _⟩
  | deferred name payload => by
    refine ⟨p.get w, ?_, by rw [sentence, String.append_empty]⟩
    rw [traverse, nothing, p.set_get]
    rfl
  | tree name children => traverseAll_transcript nothing children _ w

theorem traverseAll_transcript (nothing : ∀ spot, invoke spot = pure ()) (nodes : List (Node ρ))
    (above : List (Node ρ)) (w : ω) :
    ∃ t, traverseAll invoke (.transcript p) above nodes w = (.value (), p.set t w) ∧
      t.text = (p.get w).text ++ sentenceAll nodes :=
  match nodes with
  | [] => ⟨p.get w, by rw [p.set_get]; rfl, by rw [sentenceAll, String.append_empty]⟩
  | n :: rest => by
    obtain ⟨t, ht, htext⟩ := traverse_transcript nothing n above w
    obtain ⟨t', ht', htext'⟩ := traverseAll_transcript nothing rest above (p.set t w)
    refine ⟨t', ?_, ?_⟩
    · rw [traverseAll, Act.bind_value ht, ht', p.set_set]
    · rw [htext', p.get_set, htext, sentenceAll, String.append_assoc]

end

end Traverse

end Node

/-- Documents of a grammar with nothing replaced, drawn from a source that is all there is. -/
def Generator.drawn (g : Grammar) : Generator Unit Pcg where
  grammar := g
  policy := .chance Pcg.source
  replacements := []
  context := pure ()
  log := .silent
  budget := 1 <<< 62

/-- The documents that are made one after another until as many as asked for are there or one cannot
be made, and how that ends. -/
def Generator.series (g : Grammar) (start : String) : Nat → Pcg → List (Node Unit) × Outcome Unit
  | 0, _ => ([], .value ())
  | n + 1, s =>
    match (drawn g).document start s with
    | (.value d, s) =>
      let later := series g start n s
      (d :: later.1, later.2)
    | (.failed why, _) => ([], .failed why)
    | (.unfinished, _) => ([], .unfinished)

namespace Generator

theorem series_length (g : Grammar) (start : String) (n : Nat) (s : Pcg) :
    (series g start n s).2 = .value () ∧ (series g start n s).1.length = n ∨
      (series g start n s).2 ≠ .value () ∧ (series g start n s).1.length < n := by
  induction n generalizing s with
  | zero => exact .inl ⟨rfl, rfl⟩
  | succ n ih =>
    rw [series]
    split
    · rename_i d s' _
      rcases ih s' with ⟨hending, hlength⟩ | ⟨hending, hlength⟩
      · exact .inl ⟨hending, by rw [List.length_cons, hlength]⟩
      · exact .inr ⟨hending, Nat.succ_lt_succ hlength⟩
    · exact .inr ⟨nofun, Nat.succ_pos n⟩
    · exact .inr ⟨nofun, Nat.succ_pos n⟩

theorem series_prefix (g : Grammar) (start : String) {m n : Nat} (h : n ≤ m) (s : Pcg) :
    (series g start n s).1 <+: (series g start m s).1 := by
  induction n generalizing m s with
  | zero => exact List.nil_prefix
  | succ n ih =>
    obtain ⟨m, rfl⟩ : ∃ k, m = k + 1 := Nat.exists_eq_add_of_le' (Nat.le_of_lt_succ (by omega))
    rw [series, series]
    split
    · exact (List.prefix_cons_inj _).2 (ih (Nat.le_of_succ_le_succ h) _)
    · exact List.prefix_rfl
    · exact List.prefix_rfl

end Generator

namespace CommandLine

open Generator (drawn series)

variable {o : Options} {g : Grammar}

/-- What is printed for one document. -/
def Options.item (o : Options) (d : Node Unit) : String :=
  (if o.tree then d.outline else d.sentence) ++ o.separator

/-- An act that does no more than log. -/
def Quiet (x : Act Console Unit) : Prop :=
  ∀ c, ∃ c', x c = (.value (), c') ∧ c'.source = c.source ∧ c'.out = c.out

namespace Quiet

theorem say (level : Level) (text : Unit → String) : Quiet (Console.log.say level text) :=
  fun _ => ⟨_, rfl, rfl, rfl⟩

theorem bind {x y : Act Console Unit} (hx : Quiet x) (hy : Quiet y) :
    Quiet (x >>= fun _ => y) := by
  intro c
  obtain ⟨c₁, h₁, hsource₁, hout₁⟩ := hx c
  obtain ⟨c₂, h₂, hsource₂, hout₂⟩ := hy c₁
  refine ⟨c₂, ?_, hsource₂.trans hsource₁, hout₂.trans hout₁⟩
  rw [Act.bind_value h₁, h₂]

theorem warnings (ws : List Warning) :
    Quiet (ws.forM fun w => Console.log.say .warn fun _ => w.message) := by
  induction ws with
  | nil => exact fun c => ⟨c, rfl, rfl, rfl⟩
  | cons w ws ih => exact bind (say _ _) ih

/-- Text that is logged line by line. -/
theorem logged (text : String) : Quiet ((Sink.log Console.linePart Console.log .info).append text) := by
  have lines (ls : List String) (c : Console) :
      (ls.foldl (fun c l => Console.log.record .info (fun _ => l) c) c).source = c.source ∧
        (ls.foldl (fun c l => Console.log.record .info (fun _ => l) c) c).out = c.out := by
    induction ls generalizing c with
    | nil => exact ⟨rfl, rfl⟩
    | cons l ls ih => exact ih _
  exact fun c => ⟨_, rfl, lines _ _⟩

theorem flushed : Quiet (Sink.log Console.linePart Console.log .info).flush := by
  intro c
  refine ⟨_, rfl, ?_⟩
  split <;> exact ⟨rfl, rfl⟩

end Quiet

/-- A source together with a console that holds it and has printed some text. -/
def beside (out : Transcript) : Tandem Pcg Console where
  close s c := c.source = s ∧ c.out = out
  lost _ := False

theorem beside_followed {α : Type} {out : Transcript} {x : Act Pcg α} {y : Act Console α}
    {later : α → Act Console Unit} (h : (beside out).Acts x y) (quiet : ∀ a, Quiet (later a)) :
    (beside out).Acts x (y >>= fun a => later a >>= fun _ => pure a : Act Console α) where
  stays _ lost := lost.elim
  keeps s c close := by
    rcases h.keeps s c close with lost | ⟨hresult, hsource, hout⟩
    · exact lost.elim
    · rw [Act.bind_run]
      rcases hy : y c with ⟨a | why | _, c₁⟩
      all_goals rw [hy] at hresult hsource hout
      · obtain ⟨c₂, h₂, hsource₂, hout₂⟩ := quiet a c₁
        dsimp only
        rw [Act.bind_value h₂]
        exact .inr ⟨hresult, hsource₂.trans hsource, hout₂.trans hout⟩
      · exact .inr ⟨hresult, hsource, hout⟩
      · exact .inr ⟨hresult, hsource, hout⟩

/-- Decisions are drawn from the source of the console, whether they are traced or not. -/
theorem beside_policy (alone : o.interactive = false) (out : Transcript) :
    (beside out).Policies (.chance Pcg.source) (policy o) := by
  have drawn (c : Cursor Unit) (q : Question) : (beside out).Acts (Policy.chance Pcg.source c q)
      (Policy.within Console.sourcePart (.chance Pcg.source) c q) := by
    refine ⟨fun _ lost => lost.elim, ?_⟩
    rintro s c ⟨rfl, rfl⟩
    exact .inr ⟨rfl, rfl, rfl⟩
  intro c q
  simp only [policy, alone, Bool.false_eq_true, if_false]
  split
  · have noted := beside_followed (drawn c q) fun a =>
      (Quiet.logged ("At " ++ c.path ++ q.note a)).bind
        ((Quiet.logged (String.singleton '\n')).bind Quiet.flushed)
    simpa only [Policy.noted, Sink.line, Sink.appendChar, bind_assoc] using noted
  · exact drawn c q

theorem beside_generator (alone : o.interactive = false) (out : Transcript) :
    (beside out).Generators (drawn g) (generator o g) where
  grammar := rfl
  budget := rfl
  policy := beside_policy alone out
  replacements := .nil
  context := .pure ()
  log level text := by
    refine ⟨fun _ lost => lost.elim, ?_⟩
    rintro s c ⟨rfl, rfl⟩
    exact .inr ⟨rfl, rfl, rfl⟩

/-- A document on a console is the one that its source alone leads to. -/
theorem document_console (alone : o.interactive = false) (start : String) (c : Console) :
    ∃ c', (generator o g).document start c = (((drawn g).document start c.source).1, c') ∧
      c'.source = ((drawn g).document start c.source).2 ∧ c'.out = c.out := by
  have both := (beside_generator (g := g) alone c.out).document start
  rcases both.keeps c.source c ⟨rfl, rfl⟩ with lost | ⟨hresult, hsource, hout⟩
  · exact lost.elim
  · exact ⟨_, Prod.ext hresult.symm rfl, hsource, hout⟩

theorem write_console (o : Options) (g : Grammar) (d : Node Unit) (c : Console) :
    ∃ t, (generator o g).write (.transcript Console.outPart) d c = (.value (), { c with out := t }) ∧
      t.text = c.out.text ++ d.sentence := by
  have nothing (spot : Spot Unit) :
      (generator o g).invoke (.transcript Console.outPart) (1 <<< 62) spot = pure () := by
    have deep : (1 : Nat) <<< 62 = (1 <<< 62 - 1) + 1 := by decide
    rw [deep, Generator.invoke]
    split <;> rfl
  have written := Node.traverse_transcript (p := Console.outPart) nothing d [] c
  rw [Generator.write, Spot.write_eq_traverse]
  exact written

theorem print_console (o : Options) (g : Grammar) (d : Node Unit) (c : Console) :
    ∃ t, (if o.tree then do
          (Sink.transcript Console.outPart).append d.outline
          (Sink.transcript Console.outPart).append o.separator
        else do
          (generator o g).write (.transcript Console.outPart) d
          (Sink.transcript Console.outPart).append o.separator : Act Console Unit) c =
        (.value (), { c with out := t }) ∧ t.text = c.out.text ++ o.item d := by
  rw [Options.item]
  split
  · refine ⟨(c.out.append d.outline).append o.separator, rfl, ?_⟩
    rw [Transcript.text_append, Transcript.text_append, String.append_assoc]
  · obtain ⟨t, hwritten, htext⟩ := write_console o g d c
    refine ⟨t.append o.separator, ?_, ?_⟩
    · rw [Act.bind_value hwritten]
      rfl
    · rw [Transcript.text_append, htext, String.append_assoc]

theorem sentence_of_value (alone : o.interactive = false) {c : Console} {d : Node Unit} {s : Pcg}
    (made : (drawn g).document (o.start.getD g.language) c.source = (.value d, s)) :
    ∃ c', sentence o g c = (.value (), c') ∧ c'.source = s ∧
      c'.out.text = c.out.text ++ o.item d := by
  obtain ⟨c₁, hdocument, hsource, hout⟩ :=
    document_console (g := g) alone (o.start.getD g.language) c
  rw [made] at hdocument hsource
  obtain ⟨t, hprinted, htext⟩ := print_console o g d c₁
  refine ⟨{ c₁ with out := t }, ?_, hsource, ?_⟩
  · rw [sentence, Act.bind_value hdocument]
    exact hprinted
  · rw [htext, hout]

theorem sentence_of_failed (alone : o.interactive = false) {c : Console} {why : Fault} {s : Pcg}
    (failed : (drawn g).document (o.start.getD g.language) c.source = (.failed why, s)) :
    ∃ c', sentence o g c = (.failed why, c') ∧ c'.out = c.out := by
  obtain ⟨c₁, hdocument, -, hout⟩ := document_console (g := g) alone (o.start.getD g.language) c
  rw [failed] at hdocument
  exact ⟨c₁, Act.bind_failed hdocument, hout⟩

theorem sentence_of_unfinished (alone : o.interactive = false) {c : Console} {s : Pcg}
    (endless : (drawn g).document (o.start.getD g.language) c.source = (.unfinished, s)) :
    ∃ c', sentence o g c = (.unfinished, c') ∧ c'.out = c.out := by
  obtain ⟨c₁, hdocument, -, hout⟩ := document_console (g := g) alone (o.start.getD g.language) c
  rw [endless] at hdocument
  exact ⟨c₁, Act.bind_unfinished hdocument, hout⟩

theorem sentences_series (alone : o.interactive = false) (n : Nat) (c : Console) :
    ∃ c', sentences o g n c = ((series g (o.start.getD g.language) n c.source).2, c') ∧
      c'.out.text = c.out.text ++
        String.join ((series g (o.start.getD g.language) n c.source).1.map o.item) := by
  induction n generalizing c with
  | zero => exact ⟨c, rfl, String.append_empty.symm⟩
  | succ n ih =>
    rw [series, sentences]
    split
    · rename_i d s made
      obtain ⟨c₁, hsentence, rfl, hout⟩ := sentence_of_value alone made
      obtain ⟨c₂, hsentences, hout₂⟩ := ih c₁
      refine ⟨c₂, ?_, ?_⟩
      · rw [Act.bind_value hsentence, hsentences]
      · rw [hout₂, hout, List.map_cons, String.join_cons, String.append_assoc]
    · rename_i failed
      obtain ⟨c₁, hsentence, hout⟩ := sentence_of_failed alone failed
      exact ⟨c₁, Act.bind_failed hsentence, by rw [hout]; exact String.append_empty.symm⟩
    · rename_i endless
      obtain ⟨c₁, hsentence, hout⟩ := sentence_of_unfinished alone endless
      exact ⟨c₁, Act.bind_unfinished hsentence, by rw [hout]; exact String.append_empty.symm⟩

/-- Loading a grammar logs warnings and nothing else. -/
theorem loadFile_console {bytes : Json.Bytes} (loaded : (Grammar.load bytes).result = .ok g)
    (path : String) (c : Console) :
    ∃ c', Grammar.loadFile Console.log path (.ok bytes) c = (.value g, c') ∧
      c'.source = c.source ∧ c'.out = c.out := by
  obtain ⟨c₁, hwarned, hsource, hout⟩ := Quiet.warnings (Grammar.load bytes).warnings c
  have report : (Grammar.load bytes).report Console.log c = (.value g, c₁) := by
    rw [Inspected.report, Act.bind_value hwarned, loaded]
    rfl
  obtain ⟨c₂, hnews, hsource₂, hout₂⟩ := Quiet.say .debug (fun _ =>
    "loaded grammar for " ++ g.language ++ " with " ++
      Text.Numeral.decimal g.productions.entries.length ++ " productions from " ++ path) c₁
  refine ⟨c₂, ?_, hsource₂.trans hsource, hout₂.trans hout⟩
  have read : (Act.ofExcept (.ok bytes) : Act Console Json.Bytes) c = (.value bytes, c) := rfl
  rw [Grammar.loadFile, Act.bind_value read, Act.bind_value report, Act.bind_value hnews]
  rfl

/-- Before the first sentence nothing is drawn and nothing is printed. -/
theorem execute_loaded {bytes : Json.Bytes} (loaded : (Grammar.load bytes).result = .ok g)
    (o : Options) (c : Console) : ∃ c', execute o (.ok bytes) c = sentences o g o.count c' ∧
      c'.source = c.source ∧ c'.out = c.out := by
  obtain ⟨c₁, hloaded, hsource₁, hout₁⟩ := loadFile_console loaded o.grammar c
  have announced : Quiet (generator o g).announce := Quiet.say .debug _
  obtain ⟨c₂, hannounced, hsource₂, hout₂⟩ := announced c₁
  obtain ⟨c₃, hsaid, hsource₃, hout₃⟩ := Quiet.say .info (fun _ =>
    "Loaded grammar for " ++ g.language ++ "; generating " ++ Text.Numeral.decimal o.count ++
      " from " ++ o.start.getD g.language) c₂
  refine ⟨c₃, ?_, hsource₃.trans (hsource₂.trans hsource₁), hout₃.trans (hout₂.trans hout₁)⟩
  rw [execute, Act.bind_value hloaded, Act.bind_value hannounced, Act.bind_value hsaid]

/-- A run prints what its seed leads to, and its exit code tells how the series ends. -/
theorem run_series {bytes : Json.Bytes} (loaded : (Grammar.load bytes).result = .ok g)
    (alone : o.interactive = false) (input : Input) (entropy : UInt64)
    {documents : List (Node Unit)} {ending : Outcome Unit}
    (made : series g (o.start.getD g.language) o.count (.seeded (o.seed.getD entropy)) =
      (documents, ending)) :
    (run o (.ok bytes) input entropy).out = String.join (documents.map o.item) ∧
      ((run o (.ok bytes) input entropy).exit = 0 ↔ ending = .value ()) ∧
      ∀ why, ending = .failed why → (run o (.ok bytes) input entropy).exit = 1 := by
  obtain ⟨c, hexecute, hsource, hout⟩ :=
    execute_loaded loaded o (.start (o.seed.getD entropy) input)
  obtain ⟨c', hsentences, htext⟩ := sentences_series (g := g) alone o.count c
  have hseries : series g (o.start.getD g.language) o.count c.source = (documents, ending) := by
    rw [hsource]
    exact made
  rw [hseries] at hsentences htext
  rw [hout] at htext
  have hprinted : c'.out.text = String.join (documents.map o.item) :=
    htext.trans String.empty_append
  rw [run, hexecute, hsentences]
  cases ending with
  | value u => exact ⟨hprinted, by simp, nofun⟩
  | failed why => exact ⟨hprinted, by simp, fun _ _ => rfl⟩
  | unfinished => exact ⟨hprinted, by simp, nofun⟩

/-- Where nobody is asked, the printed sentences are a stream that the grammar, the production to
start from and the seed determine. Outlines and texts are those of the same documents, and it makes
no difference whether decisions are traced. When all documents can be made, the output is the
beginning of the output of every run that asks for more of them; when one cannot be made, just the
documents before it are printed, and the run fails. -/
theorem run_stream {bytes : Json.Bytes} (loaded : (Grammar.load bytes).result = .ok g)
    (alone : o.interactive = false) (input : Input) (entropy : UInt64) :
    ∃ documents ending,
      series g (o.start.getD g.language) o.count (.seeded (o.seed.getD entropy)) =
        (documents, ending) ∧
      (∀ tree trace, (run { o with tree, trace } (.ok bytes) input entropy).out =
        String.join (documents.map fun d =>
          (if tree then d.outline else d.sentence) ++ o.separator)) ∧
      ((run o (.ok bytes) input entropy).exit = 0 ↔ ending = .value ()) ∧
      (ending = .value () → documents.length = o.count ∧ ∀ more, o.count ≤ more → ∃ rest,
        (run { o with count := more } (.ok bytes) input entropy).out =
          (run o (.ok bytes) input entropy).out ++ rest) ∧
      (∀ why, ending = .failed why →
        documents.length < o.count ∧ (run o (.ok bytes) input entropy).exit = 1) := by
  let start := o.start.getD g.language
  let seed : Pcg := .seeded (o.seed.getD entropy)
  obtain ⟨hout, hexit, hfailed⟩ := run_series loaded alone input entropy
    (rfl : series g start o.count seed = ((series g start o.count seed).1, _))
  have hlength := Generator.series_length g start o.count seed
  refine ⟨_, _, rfl, fun tree trace => ?_, hexit, fun hending => ⟨?_, fun more hmore => ?_⟩,
    fun why hending => ⟨?_, hfailed why hending⟩⟩
  · exact (run_series (o := { o with tree, trace }) loaded alone input entropy rfl).1
  · rcases hlength with ⟨-, hlength⟩ | ⟨hne, -⟩
    · exact hlength
    · exact absurd hending hne
  · obtain ⟨later, hlater⟩ := Generator.series_prefix g start hmore seed
    refine ⟨String.join (later.map o.item), ?_⟩
    have hmade := (run_series (o := { o with count := more }) loaded alone input entropy rfl).1
    rw [hmade, hout, ← String.join_append, ← List.map_append, hlater]
    rfl
  · rcases hlength with ⟨hvalue, -⟩ | ⟨-, hlength⟩
    · rw [hvalue] at hending
      cases hending
    · exact hlength

/-- Calls that may end with an exclamation mark. -/
def calls : Json.Bytes :=
  Text.bytes <| "\x7b\"language\":\"A\",\"productions\":\x7b\"A\":\x7b\"sequence\":[" ++
    "\x7b\"literal\":\"la\"\x7d,\x7b\"optional\":[\x7b\"literal\":\"!\"\x7d]\x7d]\x7d\x7d\x7d"

/-- Three calls are printed, and every longer run of the same seed begins with them. -/
theorem run_stream_calls : (∃ g, (Grammar.load calls).result = .ok g) ∧
    ∀ more, 3 ≤ more → ∃ rest,
      (run ⟨"calls.json", none, more, some 1, false, false, false, ";"⟩ (.ok calls) [] 0).out =
        "la;la!;la!;" ++ rest := by
  let o : Options := ⟨"calls.json", none, 3, some 1, false, false, false, ";"⟩
  have hload : (Grammar.load calls).result.isOk = true := by decide +kernel
  have hout : (run o (.ok calls) [] 0).out = "la;la!;la!;" := by decide +kernel
  have hexit : (run o (.ok calls) [] 0).exit = 0 := by decide +kernel
  cases hg : (Grammar.load calls).result with
  | error why =>
    rw [hg] at hload
    cases hload
  | ok g =>
    obtain ⟨documents, ending, -, -, hends, hall, -⟩ := run_stream (o := o) hg rfl [] 0
    obtain ⟨-, longer⟩ := hall (hends.1 hexit)
    rw [hout] at longer
    exact ⟨⟨g, rfl⟩, longer⟩

end CommandLine

end Sentential
