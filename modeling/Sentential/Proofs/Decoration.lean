import Sentential.Policy.Script
import Sentential.Proofs.Layers
import Sentential.Proofs.Tandem

/-!
# Decorated runs

Journals and dialogues around the policy of a generator leave its runs as they are. A generator is
put together from parts that know the world of the policy and their own only; replacements may do
whatever they like with that world, and write and fall back as often as they like. With layers
around the policy it makes the same documents, writes the same texts, and fails with the same
faults; the policy is left in the same state, and what happens to the layers is told by the
decisions.
-/
namespace Sentential

variable {ρ κ ω Ω α : Type}

/-- What a replacement can ask of the invocation that it runs in. -/
inductive Demand where
  | append (text : String)
  | flush
  | fallBack

/-- What a replacement does: it ends, does something to the world of the policy, or makes a demand
and goes on by whether that was met. -/
inductive Conduct (ω : Type) : Type
  | ended (outcome : Outcome Unit)
  | own (change : ω → ω) (next : ω → Conduct ω)
  | demand (d : Demand) (next : Option Fault → Conduct ω)

/-- Goes on with the fault, if there is one. -/
def Act.attempt (x : Act ω Unit) : Act ω (Option Fault) := fun w =>
  match x w with
  | (.value (), w) => (.value none, w)
  | (.failed why, w) => (.value (some why), w)
  | (.unfinished, w) => (.unfinished, w)

namespace Conduct

/-- Does what a demand is for. -/
def meet (sink : Sink Ω) (fallback : Act Ω Unit) : Demand → Act Ω Unit
  | .append text => sink.append text
  | .flush => sink.flush
  | .fallBack => fallback

/-- Runs in a world that the world of the policy is a part of. The next thing that is done may depend
on how that part was before it was changed. -/
def run (p : Part Ω ω) (sink : Sink Ω) (fallback : Act Ω Unit) : Conduct ω → Act Ω Unit
  | ended outcome => fun w => (outcome, w)
  | own change next => do
    let before ← p.perform fun w => (.value w, change w)
    run p sink fallback (next before)
  | demand d next => do
    let fault ← (meet sink fallback d).attempt
    run p sink fallback (next fault)

end Conduct

/-- What a replacement can see of the invocation that it runs in. -/
structure Sight (κ : Type) where
  spot : Spot κ
  production : String
  context : κ

/-- The parts of a generator. -/
structure Design (κ ω : Type) where
  grammar : Grammar
  policy : Policy κ ω
  replacements : List (String × (Sight κ → Conduct ω))
  context : Act ω κ
  log : Log ω
  budget : Nat

namespace Design

/-- The generator in a world that the world of the design is a part of, with another policy. -/
def inside (d : Design κ ω) (p : Part Ω ω) (policy : Policy κ Ω) : Generator κ Ω where
  grammar := d.grammar
  policy := policy
  replacements := d.replacements.map fun r =>
    ⟨r.1, fun i => (r.2 ⟨i.spot, i.production, i.context⟩).run p i.sink i.fallback⟩
  context := p.perform d.context
  log := d.log.within p
  budget := d.budget

end Design

namespace Tandem

variable {T : Tandem ω Ω}

theorem Acts.attempt {x : Act ω Unit} {y : Act Ω Unit} (h : T.Acts x y) :
    T.Acts x.attempt y.attempt := by
  refine h.andThen (fun {w r u} hr hlost => ?_) fun {w v r u u'} hr hr' hclose => ?_
  · rw [Act.attempt, hr]
    cases r <;> exact hlost
  · rw [Act.attempt, Act.attempt, hr, hr']
    cases r <;> exact .inr ⟨rfl, hclose⟩

end Tandem

section Design

variable {ω₁ ω₂ : Type} {T : Tandem ω₁ ω₂} {p : Part ω₁ ω} {q : Part ω₂ ω}

/-- Conduct is the same in two worlds when everything is that is done to the part that they have in
common. -/
theorem Conduct.tandem (parts : ∀ {α : Type} (x : Act ω α), T.Acts (p.perform x) (q.perform x))
    {s : Sink ω₁} {t : Sink ω₂} (sink : T.Sinks s t) {f : Act ω₁ Unit} {g : Act ω₂ Unit}
    (fallback : T.Acts f g) (c : Conduct ω) : T.Acts (c.run p s f) (c.run q t g) := by
  induction c with
  | ended outcome => exact .still _
  | own change next ih => exact (parts _).bind ih
  | demand d next ih =>
    refine .bind (.attempt ?_) ih
    cases d with
    | append text => exact sink.append text
    | flush => exact sink.flush
    | fallBack => exact fallback

theorem Design.tandem (d : Design κ ω)
    (parts : ∀ {α : Type} (x : Act ω α), T.Acts (p.perform x) (q.perform x))
    {policy : Policy κ ω₁} {policy' : Policy κ ω₂} (policies : T.Policies policy policy') :
    T.Generators (d.inside p policy) (d.inside q policy') where
  grammar := rfl
  budget := rfl
  policy := policies
  replacements := by
    refine List.forall₂_map_left_iff.2 (List.forall₂_map_right_iff.2 (List.forall₂_same.2 ?_))
    refine fun r _ => ⟨rfl, fun i j hij => ?_⟩
    dsimp only
    rw [hij.spot, hij.production, hij.context]
    exact Conduct.tandem parts hij.sink hij.fallback _
  context := parts d.context
  log level text := parts (d.log.say level text)

theorem Sink.tandem (parts : ∀ {α : Type} (x : Act ω α), T.Acts (p.perform x) (q.perform x))
    (sink : Sink ω) : T.Sinks (sink.within p) (sink.within q) :=
  ⟨fun text => parts (sink.append text), parts sink.flush⟩

end Design

/-- Lists what a policy is asked and what comes of it. -/
def Policy.watched (policy : Policy ρ ω) : Policy ρ (List Asked × ω) := fun c q w =>
  ((policy c q w.2).1, w.1 ++ [⟨c.path, q, (policy c q w.2).1⟩], (policy c q w.2).2)

/-- One question is listed after the others. -/
theorem Policy.countP_watched (policy : Policy ρ ω) (c : Cursor ρ) (q : Question)
    (w : List Asked × ω) : (policy.watched c q w).2.1.countP Asked.answered =
      w.1.countP Asked.answered + [⟨c.path, q, (policy c q w.2).1⟩].countP Asked.answered :=
  List.countP_append

namespace Design

/-- The generator with nothing around its policy. -/
def alone (d : Design κ ω) : Generator κ ω := d.inside .whole d.policy

def watched (d : Design κ ω) : Generator κ (List Asked × ω) := d.inside .snd d.policy.watched

def decorated (d : Design κ ω) (layers : List Layer) : Generator κ (World ω layers) :=
  d.inside (World.base layers) (d.policy.wrapped layers)

end Design

namespace Tandem

variable {layers : List Layer} {n : Nat} {w₀ : World ω layers}

/-- A list of decisions and the world of the policy, next to that world with layers around it that
have seen the decisions. After more than `n` answers the first one is lost. -/
def beneath (layers : List Layer) (n : Nat) (w₀ : World ω layers) :
    Tandem (List Asked × ω) (World ω layers) where
  close v w := v.1.countP Asked.answered ≤ n ∧
    w = (World.base layers).set v.2 (World.after v.1 layers w₀)
  lost v := n < v.1.countP Asked.answered

/-- The policy and what is kept with it act on their world only. -/
theorem beneath_perform (x : Act ω α) : (beneath layers n w₀).Acts
    ((.snd : Part (List Asked × ω) ω).perform x) ((World.base layers).perform x) where
  stays _ lost := lost
  keeps v w close := by
    obtain ⟨hn, rfl⟩ := close
    rw [Part.perform_run, Part.perform_run, Part.get_set, Part.set_set]
    exact .inr ⟨rfl, hn, rfl⟩

/-- Each answer takes what there is for it, and there is enough for `n` of them. -/
theorem beneath_policies (stocked : World.Stocked n layers w₀) (policy : Policy ρ ω) :
    (beneath layers n w₀).Policies policy.watched (policy.wrapped layers) := by
  intro c q
  have hcount (v : List Asked × ω) := policy.countP_watched c q v
  refine ⟨fun v lost => ?_, fun v w close => ?_⟩
  · change n < (policy.watched c q v).2.1.countP Asked.answered
    rw [hcount]
    exact Nat.lt_of_lt_of_le lost (Nat.le_add_right _ _)
  · obtain ⟨-, rfl⟩ := close
    by_cases hn : (policy.watched c q v).2.1.countP Asked.answered ≤ n
    · have enough : World.Stocked ([⟨c.path, q, (policy c q v.2).1⟩].countP Asked.answered) layers
          ((World.base layers).set v.2 (World.after v.1 layers w₀)) := by
        rw [hcount, Nat.add_comm] at hn
        exact World.stocked_set (World.stocked_after (World.stocked_of_le hn stocked))
      rw [Policy.wrapped_run policy c q (by rw [Part.get_set]; exact enough), Part.get_set,
        World.after_set, Part.set_set, ← World.after_append]
      exact .inr ⟨rfl, hn, rfl⟩
    · exact .inl (Nat.lt_of_not_le hn)

theorem watched_policies (policy : Policy ρ ω) :
    (part .snd).Policies policy policy.watched := by
  refine fun c q => ⟨fun _ lost => lost.elim, ?_⟩
  rintro _ v rfl
  exact .inr ⟨rfl, rfl⟩

end Tandem

/-- An act that comes to the same alone, with a list of the decisions, and with layers around the
policy: the list says what happens to the layers, where everybody has a blank line for each of the
answers. -/
def Undisturbed (layers : List Layer) (x : Act ω α) (y : Act (List Asked × ω) α)
    (z : Act (World ω layers) α) : Prop :=
  ∀ w : World ω layers, ∃ asked : List Asked,
    let alone := x ((World.base layers).get w)
    y ([], (World.base layers).get w) = (alone.1, asked, alone.2) ∧
      (World.Stocked (asked.countP Asked.answered) layers w →
        z w = (alone.1, (World.base layers).set alone.2 (World.after asked layers w)))

/-- Two steps, from nothing around the policy to a list of its decisions and from there to layers. -/
theorem undisturbed {layers : List Layer} {x : Act ω α} {y : Act (List Asked × ω) α}
    {z : Act (World ω layers) α} (watched : (Tandem.part .snd).Acts x y)
    (decorated : ∀ n w, World.Stocked n layers w → (Tandem.beneath layers n w).Acts y z) :
    Undisturbed layers x y z := by
  intro w
  let base := (World.base layers).get w
  have hy : y ([], base) = ((x base).1, (y ([], base)).2.1, (x base).2) := by
    rcases watched.keeps base ([], base) rfl with lost | ⟨hresult, hworld⟩
    · exact lost.elim
    · exact Prod.ext hresult.symm (Prod.ext rfl hworld)
  refine ⟨_, hy, fun stocked => ?_⟩
  have hstart : w = (World.base layers).set base (World.after [] layers w) := by
    rw [World.after_nil, Part.set_get]
  -- Nothing is lost where the bound is the number of answers of the very run that is looked at.
  rcases (decorated _ w stocked).keeps ([], base) w ⟨Nat.zero_le _, hstart⟩ with
    lost | ⟨hresult, -, hworld⟩
  · exact absurd lost (Nat.lt_irrefl _)
  · rw [hy] at hresult hworld
    exact Prod.ext hresult.symm hworld

/-- Layers around the policy of a generator leave it as it is: documents are made and written as
they are without them, with the same faults and with the policy in the same state afterwards.
Journals get one line for every decision that was made, in order. -/
theorem Design.decorated_runs (d : Design κ ω) (layers : List Layer) (start : String)
    (sink : Sink ω) (document : Node κ) :
    Undisturbed layers (d.alone.document start) (d.watched.document start)
      ((d.decorated layers).document start) ∧
    Undisturbed layers (d.alone.write sink document) (d.watched.write (sink.within .snd) document)
      ((d.decorated layers).write (sink.within (World.base layers)) document) ∧
    Undisturbed layers (d.alone.sentence start sink) (d.watched.sentence start (sink.within .snd))
      ((d.decorated layers).sentence start (sink.within (World.base layers))) := by
  have sinks : (Tandem.part .snd).Sinks sink (sink.within (.snd : Part (List Asked × ω) ω)) :=
    Sink.tandem (p := .whole) (Tandem.part_perform .snd) sink
  have watched : (Tandem.part .snd).Generators d.alone d.watched :=
    d.tandem (p := .whole) (Tandem.part_perform .snd) (Tandem.watched_policies d.policy)
  have sinks' (n : Nat) (w : World ω layers) : (Tandem.beneath layers n w).Sinks
      (sink.within .snd) (sink.within (World.base layers)) :=
    Sink.tandem Tandem.beneath_perform sink
  have decorated (n : Nat) (w : World ω layers) (stocked : World.Stocked n layers w) :
      (Tandem.beneath layers n w).Generators d.watched (d.decorated layers) :=
    d.tandem Tandem.beneath_perform (Tandem.beneath_policies stocked d.policy)
  exact ⟨undisturbed (watched.document start) fun n w stocked =>
      (decorated n w stocked).document start,
    undisturbed (watched.write sinks document) fun n w stocked =>
      (decorated n w stocked).write (sinks' n w) document,
    undisturbed (watched.sentence sinks start) fun n w stocked =>
      (decorated n w stocked).sentence (sinks' n w) start⟩

/-- A letter by a script, and a mark that a replacement puts after it. -/
def Design.marked : Design Unit Transcript where
  grammar :=
    { language := "call"
      productions :=
        ((Catalogue.empty.insert "letter" (.characters (.anyExcept ['a']))).insert
          "mark" .epsilon).insert
          "call" (.sequence [.reference "letter", .reference "mark"]) }
  policy := .scripted (Script.empty.emit 'q')
  replacements := [("mark", fun _ => .demand (.append "!") fun _ => .ended (.value ()))]
  context := pure ()
  log := .silent
  budget := 20

def Steady.transcript : Steady Transcript := ⟨Transcript.append, id⟩

/-- A person, and a journal of what that person is offered. -/
@[reducible] def Layer.personAndJournal : List Layer :=
  [.person Steady.transcript .silent, .journal Steady.transcript]

/-- One blank line is enough for the one decision. -/
theorem Design.marked_decorated :
    (marked.decorated Layer.personAndJournal).sentence "call"
        ((Sink.transcript .whole).within (World.base Layer.personAndJournal))
        ((([some "\n"], .empty), Transcript.empty, .empty) :
          World Transcript Layer.personAndJournal) =
      (.value (),
        (([], ⟨["At call -> letter, emit character [default: 0x71]: "]⟩),
          Transcript.mk ["\n", "At call -> letter emit char 'q'."], ⟨["!", "q"]⟩)) := by
  let decision : Asked := ⟨"call -> letter", .character (.anyExcept ['a']), .value 'q'⟩
  have hdocument : marked.watched.document "call" ([], .empty) =
      (.value (.tree "call" [.tree "letter" [.literal "q"], .deferred "mark" ()]),
        [decision], .empty) := by rfl
  have hsentence : marked.watched.sentence "call" ((Sink.transcript .whole).within .snd)
      ([], .empty) = (.value (), [decision], ⟨["!", "q"]⟩) := by
    rw [Generator.sentence, Act.bind_value hdocument, Generator.write, Spot.write_eq_traverse]
    rfl
  obtain ⟨asked, hwatched, hdecorated⟩ := (decorated_runs marked Layer.personAndJournal "call"
    (.transcript .whole) (.literal "")).2.2 (([some "\n"], .empty), Transcript.empty, .empty)
  have hboth := hwatched.symm.trans hsentence
  obtain rfl : asked = [decision] := congrArg (fun r => r.2.1) hboth
  have hprompt : decision.prompt? =
      some "At call -> letter, emit character [default: 0x71]: " := by decide +kernel
  have hnote : decision.note? = some "At call -> letter emit char 'q'." := by decide +kernel
  rw [hdecorated ⟨⟨rfl, trivial⟩, trivial, trivial⟩, congrArg Prod.fst hboth,
    congrArg (fun r => r.2.2) hboth]
  simp only [World.after, Layer.after, List.filterMap, hprompt, hnote]
  rfl

end Sentential
