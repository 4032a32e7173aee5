import Mathlib.Data.List.Forall2
import Sentential.Generation.Generator
import Sentential.Proofs.Traversal

/-!
# Runs side by side

Two runs in different worlds that do the same. What goes together is a relation between the worlds,
and each way to put acts together keeps it: so do builders that ask policies which keep it, and
generators whose replacements do, whatever they do otherwise. The first world may get lost, and then
nothing more is said about the second; once lost it has to stay so.
-/
namespace Sentential

variable {ω Ω α β ρ κ : Type}

/-- Worlds that go together, and first worlds that are lost. -/
structure Tandem (ω Ω : Type) where
  close : ω → Ω → Prop
  lost : ω → Prop

namespace Tandem

variable (T : Tandem ω Ω)

/-- From worlds that go together, two acts give the same and lead to worlds that go together, unless
the first world gets lost. -/
structure Acts (x : ω → β × ω) (y : Ω → β × Ω) : Prop where
  stays : ∀ w, T.lost w → T.lost (x w).2
  keeps : ∀ w v, T.close w v → T.lost (x w).2 ∨ (x w).1 = (y v).1 ∧ T.close (x w).2 (y v).2

/-- Sinks that take the same text at the same time. -/
structure Sinks (s : Sink ω) (t : Sink Ω) : Prop where
  append : ∀ text, T.Acts (s.append text) (t.append text)
  flush : T.Acts s.flush t.flush

def Logs (l : Log ω) (m : Log Ω) : Prop := ∀ level text, T.Acts (l.say level text) (m.say level text)

def Policies (p : Policy ρ ω) (q : Policy ρ Ω) : Prop := ∀ c a, T.Acts (p c a) (q c a)

/-- Builders that differ in their policies and their logs only, and these go together. -/
structure Builders (b : Builder ρ ω) (c : Builder ρ Ω) : Prop where
  grammar : b.grammar = c.grammar
  deferral : b.deferral = c.deferral
  policy : T.Policies b.policy c.policy
  log : T.Logs b.log c.log

/-- Replacements that are called at the same place of the same document. -/
structure Invocations (i : Invocation ρ ω) (j : Invocation ρ Ω) : Prop where
  spot : i.spot = j.spot
  production : i.production = j.production
  context : i.context = j.context
  sink : T.Sinks i.sink j.sink
  fallback : T.Acts i.fallback j.fallback

/-- Replacements of the same production that do the same wherever they are called. -/
structure Replacements (r : Replacement ρ ω) (s : Replacement ρ Ω) : Prop where
  production : r.production = s.production
  run : ∀ i j, T.Invocations i j → T.Acts (r.run i) (s.run j)

/-- Generators that differ in what belongs to their worlds only, and that goes together. -/
structure Generators (g : Generator κ ω) (h : Generator κ Ω) : Prop where
  grammar : g.grammar = h.grammar
  budget : g.budget = h.budget
  policy : T.Policies g.policy h.policy
  replacements : List.Forall₂ T.Replacements g.replacements h.replacements
  context : T.Acts g.context h.context
  log : T.Logs g.log h.log

variable {T}

namespace Acts

variable {x : Act ω α} {y : Act Ω α}

theorem andThen {γ : Type} {x : ω → β × ω} {y : Ω → β × Ω} {x' : ω → γ × ω} {y' : Ω → γ × Ω}
    (hx : T.Acts x y) (stays : ∀ {w r u}, x w = (r, u) → T.lost u → T.lost (x' w).2)
    (keeps : ∀ {w v r u u'}, x w = (r, u) → y v = (r, u') → T.close u u' →
      T.lost (x' w).2 ∨ (x' w).1 = (y' v).1 ∧ T.close (x' w).2 (y' v).2) : T.Acts x' y' where
  stays w hw := stays rfl (hx.stays w hw)
  keeps w v hwv := by
    rcases hx.keeps w v hwv with hlost | ⟨hr, hclose⟩
    · exact .inl (stays rfl hlost)
    · exact keeps rfl (by rw [hr]) hclose

theorem still (r : β) : T.Acts (fun w => (r, w)) (fun v => (r, v)) where
  stays _ hw := hw
  keeps _ _ hwv := .inr ⟨rfl, hwv⟩

theorem pure (a : α) : T.Acts (pure a : Act ω α) (Pure.pure a : Act Ω α) := still _

theorem fail (why : Fault) : T.Acts (Act.fail why : Act ω α) (Act.fail why : Act Ω α) := still _

theorem unfinished : T.Acts (Act.unfinished : Act ω α) (Act.unfinished : Act Ω α) := still _

theorem ofExcept (e : Except Fault α) : T.Acts (Act.ofExcept e : Act ω α) (Act.ofExcept e) := by
  cases e with
  | ok a => exact pure a
  | error why => exact fail why

theorem bind {f : α → Act ω β} {g : α → Act Ω β} (hx : T.Acts x y)
    (hf : ∀ a, T.Acts (f a) (g a)) : T.Acts (x >>= f) (y >>= g) := by
  refine hx.andThen (fun {w r u} hr hlost => ?_) fun {w v r u u'} hr hr' hclose => ?_
  · rw [Act.bind_run, hr]
    cases r with
    | value a => exact (hf a).stays u hlost
    | failed | unfinished => exact hlost
  · rw [Act.bind_run, Act.bind_run, hr, hr']
    cases r with
    | value a => exact (hf a).keeps u u' hclose
    | failed | unfinished => exact .inr ⟨rfl, hclose⟩

end Acts

/-- A part of a world next to the world. -/
def part (p : Part Ω ω) : Tandem ω Ω := ⟨fun x w => p.get w = x, fun _ => False⟩

theorem part_perform (p : Part Ω ω) (x : Act ω α) : (part p).Acts x (p.perform x) where
  stays _ lost := lost.elim
  keeps w v close := by
    obtain rfl : p.get v = w := close
    exact .inr ⟨rfl, p.get_set _ _⟩

section Building

variable {b : Builder ρ ω} {c : Builder ρ Ω}

theorem Builders.advance (h : T.Builders b c) (cursor : Cursor ρ) (pending : List Pending)
    (t : Term) : T.Acts (b.advance cursor pending t) (c.advance cursor pending t) := by
  cases t with
  | literal | epsilon | sequence => exact .pure _
  | alternatives => exact (h.policy _ _).bind fun i => .pure _
  | optional => exact (h.policy _ _).bind fun yes => .pure _
  | repetition => exact (h.policy _ _).bind fun count => .pure _
  | reference name =>
    have hrefer : b.refer name pending cursor = c.refer name pending cursor := by
      rw [Builder.refer, Builder.refer, h.grammar, h.deferral]
    rw [Builder.advance, Builder.advance, hrefer]
    exact .ofExcept _
  | characters set =>
    refine .bind ?_ fun char => .pure _
    unfold Builder.emit
    split
    · exact .pure _
    · exact h.policy _ _
    · exact .fail _
    · exact .fail _

theorem Builders.step (h : T.Builders b c) (s : State ρ) : T.Acts (b.step s) (c.step s) :=
  (h.log _ _).bind fun _ => h.advance _ _ _

theorem Builders.run (h : T.Builders b c) (n : Nat) (s : State ρ) :
    T.Acts (b.run n s) (c.run n s) := by
  induction n generalizing s with
  | zero => exact .still _
  | succ n ih =>
    refine (h.step s).andThen (fun {w r u} hr hlost => ?_) fun {w v r u u'} hr hr' hclose => ?_
    · rw [Builder.run, hr]
      rcases r with (t | cursor) | why | _
      · exact (ih t).stays u hlost
      all_goals exact hlost
    · rw [Builder.run, Builder.run, hr, hr']
      rcases r with (t | cursor) | why | _
      · exact (ih t).keeps u u' hclose
      all_goals exact .inr ⟨rfl, hclose⟩

theorem Builders.build (h : T.Builders b c) (budget : Nat) (cursor : Cursor ρ) (t : Term) :
    T.Acts (b.build budget cursor t) (c.build budget cursor t) := by
  refine (h.run budget ⟨cursor, t, []⟩).andThen (fun {w r u} hr hlost => ?_)
    fun {w v r u u'} hr hr' hclose => ?_
  · rw [Builder.build, hr]
    cases r <;> exact hlost
  · rw [Builder.build, Builder.build, hr, hr']
    cases r <;> exact .inr ⟨rfl, hclose⟩

theorem Builders.define (h : T.Builders b c) (budget : Nat) (name : String) (cursor : Cursor ρ) :
    T.Acts (b.define budget name cursor) (c.define budget name cursor) := by
  rw [Builder.define, Builder.define, h.grammar]
  exact (Acts.ofExcept _).bind fun t => h.build _ _ _

end Building

section Writing

variable {i : Spot ρ → Act ω Unit} {j : Spot ρ → Act Ω Unit} {s : Sink ω} {t : Sink Ω}

mutual

theorem traverse (invoke : ∀ spot, T.Acts (i spot) (j spot)) (sink : T.Sinks s t)
    (above : List (Node ρ)) (n : Node ρ) :
    T.Acts (n.traverse i s above) (n.traverse j t above) :=
  match n with
  | .literal text => sink.append text
  | .deferred name payload => invoke ⟨.deferred name payload, above⟩
  | .tree name children => traverseAll invoke sink (.tree name children :: above) children

theorem traverseAll (invoke : ∀ spot, T.Acts (i spot) (j spot)) (sink : T.Sinks s t)
    (above : List (Node ρ)) (nodes : List (Node ρ)) :
    T.Acts (Node.traverseAll i s above nodes) (Node.traverseAll j t above nodes) :=
  match nodes with
  | [] => .pure ()
  | n :: rest => (traverse invoke sink above n).bind fun _ => traverseAll invoke sink above rest

end

theorem spotWrite (invoke : ∀ spot, T.Acts (i spot) (j spot)) (sink : T.Sinks s t)
    (spot : Spot ρ) : T.Acts (spot.write i s) (spot.write j t) := by
  rw [Spot.write_eq_traverse, Spot.write_eq_traverse]
  exact traverse invoke sink spot.above spot.node

theorem expand (invoke : ∀ spot, T.Acts (i spot) (j spot)) (sink : T.Sinks s t) (name : String)
    {f : Cursor ρ → Act ω (Cursor ρ)} {f' : Cursor ρ → Act Ω (Cursor ρ)}
    (fill : ∀ c, T.Acts (f c) (f' c)) (spot : Spot ρ) :
    T.Acts (spot.expand i s name f) (spot.expand j t name f') :=
  (fill _).bind fun _ => spotWrite invoke sink _

end Writing

namespace Generators

variable {g : Generator κ ω} {h : Generator κ Ω} {s : Sink ω} {t : Sink Ω}

theorem replacement? (gh : T.Generators g h) (name : String) :
    Option.Rel T.Replacements (g.replacement? name) (h.replacement? name) := by
  have found {rs : List (Replacement κ ω)} {rs' : List (Replacement κ Ω)}
      (related : List.Forall₂ T.Replacements rs rs') :
      Option.Rel T.Replacements (rs.find? fun r => r.production = name)
        (rs'.find? fun r => r.production = name) := by
    induction related with
    | nil => exact .none
    | @cons r r' rs rs' hr _ ih =>
      rw [List.find?_cons, List.find?_cons, hr.production]
      split
      · exact .some hr
      · exact ih
  exact found (List.rel_reverse gh.replacements)

theorem builder (gh : T.Generators g h) (context : κ) :
    T.Builders (g.builder context) (h.builder context) where
  grammar := gh.grammar
  deferral := by
    funext name
    have found := gh.replacement? name
    change (g.replacement? name).map _ = (h.replacement? name).map _
    revert found
    generalize g.replacement? name = r
    generalize h.replacement? name = r'
    rintro (_ | _) <;> rfl
  policy := gh.policy
  log := gh.log

theorem invoke (gh : T.Generators g h) (sink : T.Sinks s t) (n : Nat) (spot : Spot κ) :
    T.Acts (g.invoke s n spot) (h.invoke t n spot) := by
  induction n generalizing spot with
  | zero => exact .unfinished
  | succ n ih =>
    unfold Generator.invoke
    split
    · rename_i name context hnode
      have found := gh.replacement? name
      revert found
      generalize g.replacement? name = r
      generalize h.replacement? name = r'
      rintro (hr | _)
      · refine hr.run _ _ ⟨rfl, hr.production, rfl, sink, ?_⟩
        rw [hr.production, gh.budget]
        exact expand ih sink _ (fun c => (gh.builder context).define _ _ c) spot
      · exact .pure ()
    · exact .pure ()

theorem write (gh : T.Generators g h) (sink : T.Sinks s t) (document : Node κ) :
    T.Acts (g.write s document) (h.write t document) := by
  rw [Generator.write, Generator.write, gh.budget]
  exact spotWrite (gh.invoke sink _) sink _

theorem document (gh : T.Generators g h) (start : String) :
    T.Acts (g.document start) (h.document start) := by
  unfold Generator.document
  rw [gh.grammar, gh.budget]
  refine (gh.log _ _).bind fun _ => (Acts.ofExcept _).bind fun t => ?_
  refine gh.context.bind fun context => ((gh.builder context).build _ _ _).bind fun c => ?_
  exact (gh.log _ _).bind fun _ => .pure _

theorem sentence (gh : T.Generators g h) (sink : T.Sinks s t) (start : String) :
    T.Acts (g.sentence start s) (h.sentence start t) :=
  (gh.document start).bind fun d => (gh.write sink d).bind fun _ => sink.flush

end Generators

end Tandem

end Sentential
