import Mathlib.Data.Set.Finite.Basic
import Mathlib.Logic.Relation
import Sentential.Policy.Script
import Sentential.Proofs.Flawless
import Sentential.Proofs.Recursion

/-!
# Runs that end

Where no production in reach refers back to itself, generation always ends, whatever the policy
answers, as long as it answers at all or fails. A repetition may be as long as it likes, for it does
not make calls nest any deeper: how deep they nest depends on the terms and on the references alone.
-/
namespace Sentential

open Relation

variable {ρ ω α β : Type}

/-- The act ends in every world, with a value or with a fault. -/
def Act.Ends (x : Act ω α) : Prop := ∀ w v, x w ≠ (.unfinished, v)

namespace Act.Ends

theorem pure (a : α) : (Pure.pure a : Act ω α).Ends := by
  intro w v h
  cases h

theorem fail (why : Fault) : (Act.fail why : Act ω α).Ends := by
  intro w v h
  cases h

theorem modify (f : ω → ω) : (Act.modify f).Ends := by
  intro w v h
  cases h

theorem bind {x : Act ω α} {f : α → Act ω β} (hx : x.Ends) (hf : ∀ a, (f a).Ends) :
    (x >>= f).Ends := by
  intro w v h
  rw [Act.bind_run] at h
  rcases hrun : x w with ⟨a | why | _, u⟩
  · rw [hrun] at h
    exact hf a u v h
  · rw [hrun] at h
    cases h
  · exact hx w u hrun

theorem ofExcept_bind {x : Except Fault α} {f : α → Act ω β} (hf : ∀ a, x = .ok a → (f a).Ends) :
    (Act.ofExcept x >>= f).Ends := by
  cases x with
  | error why => exact fail why
  | ok a => exact hf a rfl

theorem forM {f : α → Act ω Unit} {items : List α} (h : ∀ a ∈ items, (f a).Ends) :
    (items.forM f).Ends := by
  induction items with
  | nil => exact .pure ()
  | cons a rest ih =>
    obtain ⟨ha, hrest⟩ := List.forall_mem_cons.1 h
    simp only [List.forM_eq_forM, List.forM_cons] at ih ⊢
    exact ha.bind fun _ => ih hrest

end Act.Ends

def Policy.Answers (policy : Policy ρ ω) : Prop := ∀ c q, (policy c q).Ends

theorem Policy.scripted_answers (s : Script) : (Policy.scripted (ρ := ρ) (ω := ω) s).Answers := by
  intro c q w v h
  simp only [scripted] at h
  cases hs : s.settle q with
  | error gap =>
    rw [hs] at h
    cases h
  | ok answer =>
    rw [hs] at h
    cases h

namespace Grammar

variable {g : Grammar} {p q start : String}

/-- The definition of the first production has a reference to the second one in it, however deep. -/
def Refers (g : Grammar) (p q : String) : Prop :=
  ∃ definition, g.definition p = .ok definition ∧ .reference q ∈ definition.parts []

/-- No production that can be come to from the given one leads back to itself. -/
def Acyclic (g : Grammar) (start : String) : Prop :=
  ∀ p, ReflTransGen g.Refers start p → ¬ TransGen g.Refers p p

theorem Refers.mem_names (h : g.Refers p q) : p ∈ g.productions.entries.map Prod.fst := by
  obtain ⟨definition, defined, -⟩ := h
  have hentry := mem_entries_of_find? (production?_of_definition defined)
  exact List.mem_map.2 ⟨_, hentry, rfl⟩

/-- Productions with a rank that goes down along every reference are not recursive. -/
theorem acyclic_of_rank (rank : String → Nat)
    (descends : ∀ p q, g.Refers p q → rank q < rank p) (start : String) : g.Acyclic start := by
  have hpath : ∀ {p q}, TransGen g.Refers p q → rank q < rank p := by
    intro p q h
    induction h with
    | single hpq => exact descends _ _ hpq
    | tail _ hqr ih => exact Nat.lt_trans (descends _ _ hqr) ih
  intro p _ hcycle
  exact Nat.lt_irrefl _ (hpath hcycle)

def Defined (g : Grammar) : Type := { p : String // p ∈ g.productions.entries.map Prod.fst }

instance : Finite g.Defined := List.finite_toSet (g.productions.entries.map Prod.fst)

/-- The second production is in reach and leads to the first one. -/
def LeadsTo (g : Grammar) (start : String) (q p : g.Defined) : Prop :=
  ReflTransGen g.Refers start p.1 ∧ TransGen g.Refers p.1 q.1

theorem Acyclic.wellFounded (acyclic : g.Acyclic start) : WellFounded (g.LeadsTo start) := by
  have htrans : IsTrans g.Defined (g.LeadsTo start) :=
    ⟨fun _ _ _ hab hbc => ⟨hbc.1, hbc.2.trans hab.2⟩⟩
  have hirrefl : Std.Irrefl (g.LeadsTo start) := ⟨fun p hp => acyclic p.1 hp.1 hp.2⟩
  exact Finite.wellFounded_of_trans_of_irrefl _

/-- What holds of a production once it holds of those that it refers to, holds of a production that
is not recursive. Productions without a definition refer to nothing. -/
theorem Acyclic.induction (acyclic : g.Acyclic start) {motive : String → Prop}
    (step : ∀ p, (∀ q, g.Refers p q → motive q) → motive p) : motive start := by
  have undefined : ∀ p, p ∉ g.productions.entries.map Prod.fst → motive p := by
    intro p hp
    exact step p fun q hq => absurd hq.mem_names hp
  have defined : ∀ p : g.Defined, ReflTransGen g.Refers start p.1 → motive p.1 := by
    intro p
    induction p using acyclic.wellFounded.induction with
    | h p ih =>
      intro hp
      apply step
      intro q hq
      by_cases hname : q ∈ g.productions.entries.map Prod.fst
      · exact ih ⟨q, hname⟩ ⟨hp, .single hq⟩ (hp.tail hq)
      · exact undefined q hname
  by_cases hname : start ∈ g.productions.entries.map Prod.fst
  · exact defined ⟨start, hname⟩ .refl
  · exact undefined start hname

end Grammar

namespace Builder

variable {b : Builder ρ ω}

/-- From some depth on, the recursion on a term ends. -/
def Settles (b : Builder ρ ω) (t : Term) : Prop :=
  ∃ depth, ∀ n, depth ≤ n → (b.generate n t).Ends

theorem Settles.of_succ {t : Term} (depth : Nat)
    (h : ∀ n, depth ≤ n → (b.generate (n + 1) t).Ends) : b.Settles t := by
  refine ⟨depth + 1, fun n hn => ?_⟩
  cases n with
  | zero => cases hn
  | succ n => exact h n (Nat.le_of_succ_le_succ hn)

theorem exists_depth {terms : List Term} (h : ∀ t ∈ terms, b.Settles t) :
    ∃ depth, ∀ n, depth ≤ n → ∀ t ∈ terms, (b.generate n t).Ends := by
  induction terms with
  | nil => exact ⟨0, fun _ _ t ht => nomatch ht⟩
  | cons t rest ih =>
    obtain ⟨⟨first, hfirst⟩, hrest⟩ := List.forall_mem_cons.1 h
    obtain ⟨depth, hdepth⟩ := ih hrest
    refine ⟨max first depth, fun n hn => List.forall_mem_cons.2 ⟨?_, ?_⟩⟩
    · exact hfirst n (Nat.le_trans (Nat.le_max_left _ _) hn)
    · exact hdepth n (Nat.le_trans (Nat.le_max_right _ _) hn)

theorem replicate_ends {t : Term} {n : Nat} (h : (b.generate n t).Ends) (count : Nat) :
    ((List.replicate count t).forM (b.generate n)).Ends := by
  apply Act.Ends.forM
  intro u hu
  rw [List.eq_of_mem_replicate hu]
  exact h

theorem ask_ends (answers : b.policy.Answers) (q : Question) : (b.ask q).Ends := by
  rintro ⟨c, w⟩ ⟨d, v⟩ h
  simp only [ask_run, Prod.mk.injEq] at h
  exact answers c q w _ (Prod.ext h.1 rfl)

theorem settles_reference {name : String}
    (defined : ∀ definition, b.grammar.definition name = .ok definition → b.Settles definition) :
    b.Settles (.reference name) := by
  have settled : ∃ depth, ∀ n, depth ≤ n → ∀ definition,
      b.grammar.definition name = .ok definition → (b.generate n definition).Ends := by
    cases hdef : b.grammar.definition name with
    | error why => exact ⟨0, nofun⟩
    | ok definition =>
      obtain ⟨depth, hdepth⟩ := defined definition hdef
      refine ⟨depth, fun n hn other hother => ?_⟩
      cases hother
      exact hdepth n hn
  obtain ⟨depth, hdepth⟩ := settled
  refine .of_succ depth fun n hn => ?_
  simp only [generate]
  refine .bind (.modify _) fun _ => ?_
  split
  · exact .modify _
  · exact .ofExcept_bind fun definition hdef => .bind (.modify _) fun _ =>
      (hdepth n hn definition hdef).bind fun _ => .modify _

theorem settles_characters (answers : b.policy.Answers) (set : CharacterSet) :
    b.Settles (.characters set) := by
  refine .of_succ 0 fun n _ => ?_
  simp only [generate]
  refine .bind (.modify _) fun _ => ?_
  split
  · exact .bind (.pure _) fun _ => .modify _
  · exact (ask_ends answers _).bind fun _ => .modify _
  · exact Act.Ends.fail _
  · exact Act.Ends.fail _

mutual

/-- The recursion on a term ends when all definitions that are referred to in it settle. -/
theorem settles_of_references (answers : b.policy.Answers) (t : Term)
    (references : ∀ name, .reference name ∈ t.parts [] → ∀ definition,
      b.grammar.definition name = .ok definition → b.Settles definition) : b.Settles t :=
  match t with
  | .literal text => .of_succ 0 fun n _ => .bind (.modify _) fun _ => .modify _
  | .epsilon => .of_succ 0 fun n _ => .bind (.modify _) fun _ => .pure ()
  | .sequence terms => by
    have nested := settles_of_referencesAll answers terms fun name hname =>
      references name (List.mem_cons_of_mem _ hname)
    obtain ⟨depth, hdepth⟩ := exists_depth nested
    exact .of_succ depth fun n hn => .bind (.modify _) fun _ => .forM (hdepth n hn)
  | .alternatives options => by
    have nested := settles_of_referencesChoices answers options fun name hname =>
      references name (List.mem_cons_of_mem _ hname)
    obtain ⟨depth, hdepth⟩ := exists_depth nested
    refine .of_succ depth fun n hn => .bind (.modify _) fun _ => (ask_ends answers _).bind fun i => ?_
    apply hdepth n hn
    exact List.mem_map.2 ⟨_, (List.mem_filter.1 (List.get_mem _ i)).1, rfl⟩
  | .optional t p => by
    obtain ⟨depth, hdepth⟩ := settles_of_references answers t fun name hname =>
      references name (List.mem_cons_of_mem _ hname)
    exact .of_succ depth fun n hn => .bind (.modify _) fun _ => (ask_ends answers _).bind fun yes =>
      replicate_ends (hdepth n hn) _
  | .repetition t bounds => by
    obtain ⟨depth, hdepth⟩ := settles_of_references answers t fun name hname =>
      references name (List.mem_cons_of_mem _ hname)
    exact .of_succ depth fun n hn => .bind (.modify _) fun _ => (ask_ends answers _).bind fun count =>
      replicate_ends (hdepth n hn) count
  | .reference name => settles_reference (references name List.mem_cons_self)
  | .characters set => settles_characters answers set

theorem settles_of_referencesAll (answers : b.policy.Answers) (terms : List Term)
    (references : ∀ name, .reference name ∈ Term.partsAll terms [] → ∀ definition,
      b.grammar.definition name = .ok definition → b.Settles definition) :
    ∀ t ∈ terms, b.Settles t :=
  match terms with
  | [] => nofun
  | t :: rest => by
    have hparts : Term.partsAll (t :: rest) [] = t.parts [] ++ Term.partsAll rest [] := by
      rw [Term.partsAll, Term.parts_eq_append]
    rw [hparts] at references
    refine List.forall_mem_cons.2 ⟨?_, ?_⟩
    · exact settles_of_references answers t fun name hname =>
        references name (List.mem_append_left _ hname)
    · exact settles_of_referencesAll answers rest fun name hname =>
        references name (List.mem_append_right _ hname)

theorem settles_of_referencesChoices (answers : b.policy.Answers) (options : List Choice)
    (references : ∀ name, .reference name ∈ Term.partsChoices options [] → ∀ definition,
      b.grammar.definition name = .ok definition → b.Settles definition) :
    ∀ t ∈ options.map Weighted.item, b.Settles t :=
  match options with
  | [] => nofun
  | ⟨t, bias⟩ :: rest => by
    have hparts : Term.partsChoices (⟨t, bias⟩ :: rest) [] =
        t.parts [] ++ Term.partsChoices rest [] := by
      rw [Term.partsChoices, Term.parts_eq_append]
    rw [hparts] at references
    rw [List.map_cons]
    refine List.forall_mem_cons.2 ⟨?_, ?_⟩
    · exact settles_of_references answers t fun name hname =>
        references name (List.mem_append_left _ hname)
    · exact settles_of_referencesChoices answers rest fun name hname =>
        references name (List.mem_append_right _ hname)

end

theorem settles_of_acyclic (answers : b.policy.Answers) {start : String}
    (acyclic : b.grammar.Acyclic start) {definition : Term}
    (defined : b.grammar.definition start = .ok definition) : b.Settles definition := by
  have settled : ∀ t, b.grammar.definition start = .ok t → b.Settles t := by
    apply acyclic.induction
      (motive := fun p => ∀ t, b.grammar.definition p = .ok t → b.Settles t)
    intro p ih t ht
    apply settles_of_references answers
    intro q hq
    exact ih q ⟨t, ht, hq⟩
  exact settled definition defined

/-- A run from a production that is not recursive ends after finitely many steps, with a document or
with a fault, wherever its text goes, whatever is deferred and however the policy answers. -/
theorem run_ends (answers : b.policy.Answers) {start : String}
    (acyclic : b.grammar.Acyclic start) {definition : Term}
    (defined : b.grammar.definition start = .ok definition) (c : Cursor ρ) (w : ω) :
    ∃ n ending v, ending.isStopped = false ∧
      ∀ m, n ≤ m → b.run m ⟨c, definition, []⟩ w = (ending, v) := by
  obtain ⟨depth, hdepth⟩ := settles_of_acyclic answers acyclic defined
  have follows := follows_generate (b := b) depth definition c w []
  rcases hg : b.generate depth definition (c, w) with ⟨_ | why | _, c', v⟩ <;> rw [hg] at follows
  · obtain ⟨n, hn⟩ := Leads.run_done follows
    exact ⟨n, _, v, rfl, hn⟩
  · obtain ⟨n, s, -, hn⟩ := Fails.run_failed follows
    exact ⟨n, _, v, rfl, hn⟩
  · exact (hdepth depth (Nat.le_refl depth) _ _ hg).elim

/-- Lines of words, none of which refers back, under a script that asks for very many of them. -/
def chorus : Builder Unit Unit where
  grammar :=
    { language := "chorus"
      productions := ((Catalogue.empty.insert "chorus"
        (.repeated (.reference "line") 0 none)).insert "line"
          (.oneOf [.reference "word", .literal "la"])).insert "word" (.characters (.anyExcept [])) }
  policy := .scripted (((Script.empty.repeats 4294967295 0 none).pick (.reference "word")).emit 'x')
  deferral _ := none
  log := .silent

theorem acyclic_chorus : chorus.grammar.Acyclic "chorus" := by
  apply Grammar.acyclic_of_rank fun name => ["word", "line", "chorus"].idxOf name
  rintro p q ⟨definition, defined, hq⟩
  have hentry := Grammar.mem_entries_of_find? (Grammar.production?_of_definition defined)
  have hentries : chorus.grammar.productions.entries =
      [("chorus", .repeated (.reference "line") 0 none),
        ("line", .oneOf [.reference "word", .literal "la"]),
        ("word", .characters (.anyExcept []))] := by rfl
  rw [hentries] at hentry
  simp only [List.mem_cons, List.not_mem_nil, or_false, Prod.mk.injEq] at hentry
  rcases hentry with ⟨rfl, rfl⟩ | ⟨rfl, rfl⟩ | ⟨rfl, rfl⟩
  · obtain rfl : q = "line" := by simpa [Term.repeated, Term.parts] using hq
    decide
  · obtain rfl : q = "word" := by
      simpa [Term.oneOf, Term.parts, Term.partsChoices] using hq
    decide
  · simp [Term.parts] at hq

/-- However many lines are asked for, the chorus comes to an end. -/
theorem run_ends_chorus :
    ∃ definition, chorus.grammar.definition "chorus" = .ok definition ∧
      ∃ n ending v, ending.isStopped = false ∧
        ∀ m, n ≤ m → chorus.run m ⟨.root "chorus", definition, []⟩ () = (ending, v) :=
  ⟨_, rfl, run_ends (b := chorus) (Policy.scripted_answers _) acyclic_chorus rfl
    (.root "chorus") ()⟩

end Builder

end Sentential
