import Mathlib.Data.Set.Function
import Sentential.Proofs.Faults
import Sentential.Proofs.Lockstep
import Sentential.Proofs.Renaming
import Sentential.Proofs.Rewriting
import Sentential.Proofs.Termination
import Sentential.Proofs.Verdict

/-!
# What matters to a run

A run looks at the definitions that its production refers to, perhaps by way of others, and at nothing
else of the grammar; and it does not look at names other than to find those definitions. So where two
grammars agree on them, up to the names, the same is drawn in both and comes to the same document.
-/
namespace Sentential

open Relation

variable {ρ ω Ω σ : Type}

/-- Ends that are the same but for the names of productions. A document has the same text then. -/
inductive Outcome.Renamed (f : String → String) : Outcome (Node ρ) → Outcome (Node ρ) → Prop
  | value {document other : Node ρ} (names : other = document.rename f)
      (text : other.sentence = document.sentence) : Renamed f (.value document) (.value other)
  | failed (why : Fault) : Renamed f (.failed why) (.failed (why.rename f))
  | unfinished : Renamed f .unfinished .unfinished

theorem Outcome.Renamed.eq {x y : Outcome (Node ρ)} (h : x.Renamed id y) : x = y := by
  cases h with
  | value names => rw [names, Node.rename_id]
  | failed why => rw [Fault.rename_id]
  | unfinished => rfl

namespace Grammar

variable {g h : Grammar} {f : String → String} {start : String}

/-- All that can be come to from a production of the first grammar is in the second one, under other
names. -/
structure Copies (f : String → String) (start : String) (g h : Grammar) : Prop where
  language : h.language = f g.language
  production? : ∀ n, ReflTransGen g.Refers start n →
    h.production? (f n) = (g.production? n).map (Term.rename f)

/-- The references in a term are to productions that can be come to. -/
def Keeps (g : Grammar) (start : String) (t : Term) : Prop :=
  t.Throughout fun s => ∀ n, s = .reference n → ReflTransGen g.Refers start n

def Copied (f : String → String) (g : Grammar) (start : String) (t u : Term) : Prop :=
  u = t.rename f ∧ g.Keeps start t

theorem Copied.sameKind {t u : Term} (h : Copied f g start t u) :
    t.SameKind (fun m n => n = f m ∧ ReflTransGen g.Refers start m) (fun _ => False)
      (Copied f g start) u := by
  obtain ⟨rfl, keeps⟩ := h
  cases t with
  | literal text => exact .literal text
  | sequence ts =>
    rw [Term.rename, Term.renameAll_eq_map]
    exact .sequence (List.forall₂_map_right_iff.2 (List.forall₂_same.2 fun t ht =>
      ⟨rfl, keeps.sequence ht⟩))
  | alternatives options =>
    rw [Term.rename, Term.renameChoices_eq_map]
    exact .alternatives (List.forall₂_map_right_iff.2 (List.forall₂_same.2 fun c hc =>
      ⟨rfl, rfl, keeps.alternatives hc⟩))
  | reference n => exact .reference ⟨rfl, keeps.self n rfl⟩
  | optional t p => exact .optional ⟨rfl, keeps.optional⟩ p
  | repetition t bounds => exact .repetition ⟨rfl, keeps.repetition⟩ bounds
  | characters set => exact .characters set
  | epsilon => exact .epsilon

/-- What goes on in two grammars one of which has a copy of what matters in the other one. The draws
are made by parts of the worlds that are in the same state. -/
def copying (ρ : Type) (f : String → String) (g : Grammar) (start : String) (p : Part ω σ)
    (p' : Part Ω σ) : Likeness ρ ω Ω where
  names m n := n = f m ∧ ReflTransGen g.Refers start m
  switches _ := False
  terms := Copied f g start
  cursors c d := d = c.rename f
  faults why cause := cause = why.rename f
  worlds w v := p.get w = p'.get v
  sameKind := Copied.sameKind
  write h text := by rw [h, Cursor.rename_write]
  enter h _ _ names := by rw [h, names.1, Cursor.rename_enter]
  leave h := by rw [h, Cursor.rename_leave]
  endOfInput := rfl
  meaningless h := by
    rw [(CharacterSet.of_meaning_error h).1]
    rfl

variable {p : Part ω σ} {p' : Part Ω σ}

theorem Copies.definition (copies : Copies f start g h) {n : String}
    (reached : ReflTransGen g.Refers start n) :
    (copying ρ f g start p p').Definitions (g.definition n) (h.definition (f n)) := by
  have production? := copies.production? n reached
  cases hn : g.production? n with
  | none =>
    rw [hn] at production?
    rw [Grammar.definition, Grammar.definition, hn, production?]
    refine .error ?_
    change h.unknown (f n) = (g.unknown n).rename f
    rw [unknown, unknown, copies.language]
    rfl
  | some t =>
    have defined : g.definition n = .ok t := by rw [Grammar.definition, hn]
    rw [hn] at production?
    rw [defined, Grammar.definition, production?]
    refine .ok ⟨rfl, fun s hs m hm => reached.tail ⟨t, defined, ?_⟩⟩
    rwa [← hm]

theorem get_set_eq (p : Part ω σ) (p' : Part Ω σ) (b : σ) (w : ω) (v : Ω) :
    p.get (p.set b w) = p'.get (p'.set b v) := by rw [p.get_set, p'.get_set]

theorem ends_answer (s : Source σ) (q : Question) {w : ω} {v : Ω} (worlds : p.get w = p'.get v) :
    (copying ρ f g start p p').Ends Eq (p.perform (s.answer q) w) (p'.perform (s.answer q) v) := by
  have same b := get_set_eq p p' b w v
  rw [Part.perform_run, Part.perform_run, ← worlds]
  cases hx : s.answer q (p.get w) with
  | mk r b =>
    cases r with
    | value a => exact .value rfl (same b)
    | failed why =>
      rw [(Source.choice_of_answer_failed hx).2]
      exact .failed rfl (same b)
    | unfinished => exact .unfinished (same b)

/-- Chance draws the same for a copy of a question. -/
theorem ends_chance (s : Source σ) {q r : Question} {same : q.Answer → r.Answer → Prop}
    (questions : (copying ρ f g start p p').Questions q r same) {w : ω} {v : Ω}
    (worlds : p.get w = p'.get v) :
    (copying ρ f g start p p').Ends same (p.perform (s.answer q) w) (p'.perform (s.answer r) v) := by
  cases questions with
  | @choice options others each =>
    have weights : options.map Weighted.weight = others.map Weighted.weight := by
      rw [← List.forall₂_eq_eq_eq, List.forall₂_map_left_iff, List.forall₂_map_right_iff]
      exact each.imp fun _ _ h => h.1
    obtain ⟨position, source⟩ := s.biased_congr weights (p.get w)
    have kept b := get_set_eq p p' b w v
    rw [Part.perform_run, Part.perform_run, ← worlds]
    simp only [Source.answer]
    revert position source
    generalize s.biased options (p.get w) = x
    generalize s.biased others (p.get w) = y
    obtain ⟨i, b⟩ := x
    obtain ⟨j, c⟩ := y
    intro position source
    obtain rfl : b = c := source
    cases i with
    | none =>
      cases j with
      | none => exact .failed rfl (kept b)
      | some j => cases position
    | some i =>
      cases j with
      | none => cases position
      | some j => exact .value (Option.some.inj position) (kept b)
  | count _ bounds => exact ends_answer s (.count _ bounds) worlds
  | inclusion _ x => exact ends_answer s (.inclusion _ x) worlds
  | counted _ _ never => exact never.elim
  | character set => exact ends_answer s (.character set) worlds

theorem renamed_of_ends {x : Outcome (Node ρ) × ω} {y : Outcome (Node ρ) × Ω}
    (ends : (copying ρ f g start p p').Ends (fun t u => u = t.rename f) x y) :
    Outcome.Renamed f x.1 y.1 ∧ p.get x.2 = p'.get y.2 := by
  cases ends with
  | value renamed same =>
    rw [renamed]
    exact ⟨.value rfl (Node.sentence_rename f _), same⟩
  | @failed why cause _ _ renamed same =>
    have renamed : cause = why.rename f := renamed
    rw [renamed]
    exact ⟨.failed why, same⟩
  | unfinished same => exact ⟨.unfinished, same⟩

/-- The definitions of a grammar under other names. -/
def renamed (f : String → String) (g : Grammar) : List (String × Term) :=
  g.productions.entries.map fun e => (f e.1, e.2.rename f)

theorem map_fst_renamed (f : String → String) (g : Grammar) :
    (g.renamed f).map Prod.fst = (g.productions.entries.map Prod.fst).map f := by
  rw [renamed, List.map_map, List.map_map]
  rfl

theorem flaw?_rename (entries : h.productions.entries.Perm (g.renamed f)) {s : Term}
    (flawless : g.flaw? s = none) : h.flaw? (s.rename f) = none := by
  cases s with
  | reference n =>
    have defined : g.hasProduction n = true :=
      Flawless.hasProduction (List.forall_mem_singleton.2 flawless)
    have named : f n ∈ (g.renamed f).map Prod.fst := by
      rw [map_fst_renamed]
      exact List.mem_map_of_mem (Catalogue.contains_iff.1 defined)
    exact if_pos ((hasProduction_iff entries).2 named)
  | optional | repetition => exact flawless
  | _ => rfl

theorem Sound.hasProduction_language (sound : g.Sound) : g.hasProduction g.language = true := by
  by_contra undefined
  rw [Sound, inspect, if_neg undefined] at sound
  cases sound

/-- Under other names, if they are different ones, the definitions of a sound grammar make up a sound
one. -/
theorem Sound.build_renamed (sound : g.Sound)
    (injective : Set.InjOn f { n | g.hasProduction n = true }) :
    ∃ h : Grammar, (build (f g.language) (g.renamed f)).result = .ok h ∧
      h.language = f g.language ∧ h.productions.entries.Perm (g.renamed f) := by
  have distinct : ((g.renamed f).map Prod.fst).Nodup := by
    rw [map_fst_renamed]
    refine g.productions.nodup.map_on fun m hm n hn => ?_
    exact injective (Catalogue.contains_iff.2 hm) (Catalogue.contains_iff.2 hn)
  obtain ⟨h, language, entries, built⟩ := build_of_nodup (f g.language) distinct
  have language_defined : h.hasProduction h.language = true := by
    rw [hasProduction_iff entries, map_fst_renamed, language]
    exact List.mem_map_of_mem (Catalogue.contains_iff.1 sound.hasProduction_language)
  have flawless : ∀ t ∈ h.terms.map Prod.snd, h.flaw? t = none := by
    intro t ht
    rw [snd_terms, List.mem_flatMap] at ht
    obtain ⟨e, he, ht⟩ := ht
    obtain ⟨⟨n, u⟩, hu, rfl⟩ := List.mem_map.1 (entries.mem_iff.1 he)
    have parts : (u.rename f).parts [] = (u.parts []).map (Term.rename f) := u.parts_rename f []
    rw [parts] at ht
    obtain ⟨s, hs, rfl⟩ := List.mem_map.1 ht
    exact flaw?_rename entries (sound.flawless (Catalogue.find?_of_mem hu) s hs)
  have inspected : h.inspect.result = .ok () := by
    rw [inspect, if_pos language_defined, inspectTerms_result, List.findSome?_eq_none_iff.2 flawless]
  refine ⟨h, ?_, language, entries⟩
  rw [built, Grammar.inspected, inspected]
  rfl

/-- Productions of a sound grammar that are come to exist, apart perhaps from the first one. -/
theorem Sound.eq_or_hasProduction (sound : g.Sound) {n : String}
    (reached : ReflTransGen g.Refers start n) : n = start ∨ g.hasProduction n = true := by
  obtain rfl | ⟨m, -, definition, defined, referred⟩ := reached.cases_tail
  · exact .inl rfl
  · have flawless := sound.flawless (production?_of_definition defined)
    exact .inr (Flawless.hasProduction (List.forall_mem_singleton.2 (flawless _ referred)))

theorem Sound.exists_copy (sound : g.Sound)
    (injective : Set.InjOn f { n | n = start ∨ g.hasProduction n = true }) :
    ∃ h, (build (f g.language) (g.renamed f)).result = .ok h ∧ Copies f start g h := by
  obtain ⟨h, built, language, entries⟩ :=
    sound.build_renamed (injective.mono fun n hn => .inr hn)
  refine ⟨h, built, language, fun n reached => ?_⟩
  have hn := sound.eq_or_hasProduction reached
  cases defined : g.production? n with
  | some t =>
    have entry : (f n, t.rename f) ∈ g.renamed f :=
      List.mem_map_of_mem (f := fun e : String × Term => (f e.1, e.2.rename f))
        (mem_entries_of_find? defined)
    exact Catalogue.find?_of_mem (entries.mem_iff.2 entry)
  | none =>
    -- Then it is the first production, and no other one has been given its new name.
    refine Option.not_isSome_iff_eq_none.1 fun known => ?_
    have named := (hasProduction_iff entries).1 known
    rw [map_fst_renamed] at named
    obtain ⟨m, hm, same⟩ := List.mem_map.1 named
    have hm := Catalogue.contains_iff.2 hm
    obtain rfl : m = n := injective (.inr hm) hn same
    have defined : (g.productions.find? m) = none := defined
    rw [Catalogue.contains, defined] at hm
    cases hm

end Grammar

namespace Builder

variable {g h : Grammar} {f : String → String} {start : String} {p : Part ω σ} {p' : Part Ω σ}

/-- A document is made alike of a production and its copy, and the same is drawn for it. -/
theorem tree_copied (copies : Grammar.Copies f start g h) (s : Source σ) {log : Log ω}
    {log' : Log Ω} (spared : ∀ level text w, p.get (log.record level text w) = p.get w)
    (spared' : ∀ level text v, p'.get (log'.record level text v) = p'.get v) (budget : Nat) {w : ω}
    {v : Ω} (worlds : p.get w = p'.get v) :
    Outcome.Renamed f ((drawn g p s log : Builder ρ ω).tree budget start w).1
        ((drawn h p' s log').tree budget (f start) v).1 ∧
      p.get ((drawn g p s log : Builder ρ ω).tree budget start w).2 =
        p'.get ((drawn h p' s log' : Builder ρ Ω).tree budget (f start) v).2 := by
  have builders : (Grammar.copying ρ f g start p p').Builders (drawn g p s log)
      (drawn h p' s log') :=
    { kept := rfl
      kept' := rfl
      definition := fun names => names.1 ▸ copies.definition names.2
      policy := fun questions _ _ _ _ _ worlds => Grammar.ends_chance s questions worlds
      traced := fun worlds _ _ _ _ => (spared _ _ _).trans (worlds.trans (spared' _ _ _).symm) }
  have defined := builders.define budget (p := start) (q := f start) ⟨rfl, .refl⟩
    (Cursor.rename_root f start).symm worlds
  refine Grammar.renamed_of_ends (defined.bind fun {c d _ _} renamed same => ?_)
  have renamed : d = c.rename f := renamed
  exact .value (by rw [renamed, Cursor.document_rename]) same

/-- What a source draws, and what comes of that, depends on nothing but the definitions that can be
come to. Whatever else is added, changed or removed, the same is drawn and the same document made, or
the same fault; and other names for the productions, if they are different ones, make no difference
but for the names. -/
theorem tree_relevant (g : Grammar) (start : String) (p : Part ω σ) (s : Source σ) (log : Log ω)
    (spared : ∀ level text w, p.get (log.record level text w) = p.get w) (budget : Nat) (w : ω) :
    (∀ h : Grammar, h.language = g.language →
      (∀ n, ReflTransGen g.Refers start n → h.production? n = g.production? n) →
      ((drawn h p s log : Builder ρ ω).tree budget start w).1 =
          ((drawn g p s log : Builder ρ ω).tree budget start w).1 ∧
        p.get ((drawn h p s log : Builder ρ ω).tree budget start w).2 =
          p.get ((drawn g p s log : Builder ρ ω).tree budget start w).2) ∧
    (g.Sound → ∀ f, Set.InjOn f { n | n = start ∨ g.hasProduction n = true } →
      ∃ h, (Grammar.build (f g.language)
          (g.productions.entries.map fun e => (f e.1, e.2.rename f))).result = .ok h ∧
        Outcome.Renamed f ((drawn g p s log : Builder ρ ω).tree budget start w).1
          ((drawn h p s log).tree budget (f start) w).1 ∧
        p.get ((drawn h p s log : Builder ρ ω).tree budget (f start) w).2 =
          p.get ((drawn g p s log : Builder ρ ω).tree budget start w).2) := by
  constructor
  · intro h language production?
    have copies : Grammar.Copies id start g h :=
      ⟨language, fun n reached => by
        have rename : Term.rename id = id := funext Term.rename_id
        rw [id, production? n reached, rename, Option.map_id, id]⟩
    obtain ⟨renamed, same⟩ := tree_copied (ρ := ρ) copies s spared spared budget (w := w) rfl
    exact ⟨renamed.eq.symm, same.symm⟩
  · intro sound f injective
    obtain ⟨h, built, copies⟩ := sound.exists_copy injective
    obtain ⟨renamed, same⟩ := tree_copied (ρ := ρ) copies s spared spared budget (w := w) rfl
    exact ⟨h, built, renamed, same.symm⟩

end Builder

/-- A tune of one note, with something else beside it. -/
def Grammar.air (name : String) (definition : Term) : Grammar where
  language := "air"
  productions := ((Catalogue.empty.insert "air" (.sequence [.literal "o", .reference "tune"])).insert
    "tune" (.characters (.anyExcept []))).insert name definition

/-- Only the tune can be come to from it. -/
theorem Grammar.reached_air {n : String}
    (reached : ReflTransGen (air "spare" (.literal "la")).Refers "air" n) :
    n = "air" ∨ n = "tune" := by
  induction reached with
  | refl => exact .inl rfl
  | tail _ refers ih =>
    obtain ⟨definition, defined, referred⟩ := refers
    rcases ih with rfl | rfl
    · cases defined
      exact .inr (by simpa [Term.parts, Term.partsAll] using referred)
    · cases defined
      simp [Term.parts] at referred

namespace Builder

/-- What else is in the grammar makes no difference, and new names make none but for themselves. -/
theorem tree_relevant_air : ∃ v,
    (drawn (.air "spare" (.literal "la")) .whole Recorded.source .silent : Builder Unit _).tree 10
        "air" (.ofLists [] ['n']) =
      (.value (.tree "air" [.literal "o", .tree "tune" [.literal "n"]]), v) ∧
    (drawn (.air "other" (.reference "air")) .whole Recorded.source .silent : Builder Unit _).tree 10
        "air" (.ofLists [] ['n']) =
      (.value (.tree "air" [.literal "o", .tree "tune" [.literal "n"]]), v) ∧
    ∃ h, (Grammar.build "new air" [("new air", .sequence [.literal "o", .reference "new tune"]),
        ("new spare", .literal "la"), ("new tune", .characters (.anyExcept []))]).result = .ok h ∧
      (drawn h .whole Recorded.source .silent : Builder Unit _).tree 10 "new air" (.ofLists [] ['n']) =
        (.value (.tree "new air" [.literal "o", .tree "new tune" [.literal "n"]]), v) := by
  have made : ∃ v, (drawn (.air "spare" (.literal "la")) .whole Recorded.source .silent :
      Builder Unit _).tree 10 "air" (.ofLists [] ['n']) =
        (.value (.tree "air" [.literal "o", .tree "tune" [.literal "n"]]), v) := ⟨_, by rfl⟩
  obtain ⟨v, made⟩ := made
  obtain ⟨others, names⟩ := tree_relevant (ρ := Unit) (.air "spare" (.literal "la")) "air" .whole
    Recorded.source .silent (fun _ _ _ => rfl) 10 (.ofLists [] ['n'])
  rw [made] at others names
  refine ⟨v, made, ?_, ?_⟩
  · obtain ⟨same, source⟩ := others (.air "other" (.reference "air")) rfl fun n reached => by
      rcases Grammar.reached_air reached with rfl | rfl <;> rfl
    exact Prod.ext same source
  · have injective : Function.Injective ("new " ++ · : String → String) := fun a b h => by
      simpa using h
    have sound : (Grammar.air "spare" (.literal "la")).Sound := by
      simp only [Grammar.Sound, Grammar.inspect, Grammar.terms_eq]
      rfl
    obtain ⟨h, built, renamed, source⟩ := names sound ("new " ++ ·) injective.injOn
    refine ⟨h, built, ?_⟩
    change (drawn h .whole Recorded.source .silent).tree 10 ("new " ++ "air") _ = _
    generalize (drawn h .whole Recorded.source .silent : Builder Unit _).tree 10 ("new " ++ "air")
      (.ofLists [] ['n']) = run at renamed source ⊢
    obtain ⟨outcome, u⟩ := run
    cases renamed with
    | value names => exact Prod.ext (congrArg Outcome.value names) source

end Builder

end Sentential
