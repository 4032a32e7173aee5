import Sentential.Proofs.Members
import Sentential.Proofs.Scripts
import Sentential.Proofs.Soundness

/-!
# Rehearsals

Runs whose answers are named in advance by a script, perhaps only as what a person falls back on, and
perhaps with journals of them. A script offers no more than there is where alternatives and
characters are concerned, but nobody looks at the counts in it, whereas a person cannot type a count
that is out of bounds. So a run stays within its grammar where the counts of the script do, and
otherwise repeats a term as often as it was told to.
-/
namespace Sentential

variable {ρ ω κ : Type}

namespace Script

/-- The script names a count for some bounds that is out of them. -/
inductive Strays (s : Script) : (q : Question) → q.Answer → Prop
  | count {term : Term} {bounds : Bounds} {n : Nat}
      (named : s.count bounds.least bounds.most = .ok n)
      (outside : ¬ (Question.count term bounds).Admits n) : Strays s (.count term bounds) n

/-- Whatever bounds make sense, a count for them is within them. -/
def Modest (s : Script) : Prop :=
  ∀ ⦃bounds : Bounds⦄, bounds.valid = true → ∀ ⦃n⦄, s.count bounds.least bounds.most = .ok n →
    bounds.least.toNat ≤ n ∧ ∀ most, bounds.most = some most → n ≤ most.toNat

variable {s : Script}

theorem contains_of_settle {set : CharacterSet} {c : Char}
    (h : s.settle (.character set) = .ok c) : set.contains c = true := by
  have hc : c ∈ s.characters.filter set.contains := by
    rw [settle_character_eq_ok_iff.1 h]
    exact List.mem_singleton_self c
  exact (List.mem_filter.1 hc).2

/-- Only with a count can a script leave the grammar. -/
theorem admits_or_strays {q : Question} {a : q.Answer} (h : s.settle q = .ok a) :
    q.Admits a ∨ s.Strays q a := by
  cases q with
  | choice options => exact .inl trivial
  | count term bounds =>
    by_cases hadmits : (Question.count term bounds).Admits a
    · exact .inl hadmits
    · exact .inr (.count h hadmits)
  | inclusion term p => exact .inl trivial
  | character set => exact .inl (CharacterSet.contains_iff.1 (contains_of_settle h)).1

theorem Modest.not_strays (modest : s.Modest) {q : Question} (sensible : q.Sensible) (a : q.Answer) :
    ¬ s.Strays q a := by
  intro h
  cases h with
  | count named outside => exact outside (modest sensible named)

end Script

namespace Policy

/-- A script, a person who can fall back on such a policy, and journals of such policies, nested in
any way. -/
inductive Rehearsed (s : Script) : Policy ρ ω → Prop
  | scripted : Rehearsed s (.scripted s)
  | fallingBack (d : Dialogue ω) {defaults : Policy ρ ω} (h : Rehearsed s defaults) :
      Rehearsed s (.asking d (some defaults))
  | noted (sink : Sink ω) {policy : Policy ρ ω} (h : Rehearsed s policy) :
      Rehearsed s (.noted sink policy)

variable {s : Script}

/-- An answer is within the grammar, or it is the script that strays. -/
theorem Rehearsed.keeps {policy : Policy ρ ω} (h : policy.Rehearsed s) :
    policy.Keeps fun q a => q.Admits a ∨ s.Strays q a := by
  induction h with
  | scripted =>
    intro c q w a v _ ha
    exact Script.admits_or_strays (scripted_fst_eq_value_iff.1 (congrArg Prod.fst ha))
  | fallingBack d h ih =>
    have read ⦃q line a⦄ (h : Question.read q line = .ok a) : q.Admits a ∨ s.Strays q a :=
      .inl (Question.admits_of_read h)
    refine asking_keeps d read fun policy hpolicy => ?_
    cases hpolicy
    exact ih
  | noted sink h ih => exact noted_keeps sink ih

end Policy

namespace Generator

variable {g : Generator κ ω} {s : Script}

/-- What a complete derivation coalesces to is written as the sentence that is derived. -/
theorem write_coalesced {h : Grammar} {t : Term} (d : Derivation h (undeferred (ρ := κ)) t)
    {document : Node κ} (hforest : Node.coalesce d.forest = [document]) (p : Part ω Transcript)
    (w : ω) : ∃ v, g.write (.transcript p) document w = (.value (), v) ∧
      Transcript.textAt p v = Transcript.textAt p w ++ d.sentence := by
  have hreads : Node.ReadsAll (fun _ _ _ => False) (Node.namesOf ([] : List (Node κ)))
      (Node.coalesce d.forest) d.sentence := (Node.readsAll_coalesce _).2 (d.reads_forest _)
  rw [hforest, Node.readsAll_singleton] at hreads
  obtain ⟨v, m, hv, hwrite⟩ :=
    Node.traverse_of_reads (fun _ => g.invoke (.transcript p) g.budget) id
      (fun _ _ _ h => h.elim) _ hreads w
  rw [write, Spot.write_eq_traverse]
  exact ⟨v, hwrite m (Nat.le_refl m), hv⟩

/-- A document that is made by a script from a sound grammar, without replacements, is the coalesced
tree of a derivation, and its text is the sentence that is derived. Every decision that the grammar
does not admit is a count which the script names for those bounds; there is none if the script is
modest. -/
theorem exists_derivation_of_rehearsal (sound : g.grammar.Sound) (rehearsed : g.policy.Rehearsed s)
    (plain : g.replacements = []) {start : String} {document : Node κ} {w v : ω}
    (h : g.document start w = (.value document, v)) :
    ∃ d : Derivation g.grammar (undeferred (ρ := κ)) (.reference start),
      Node.coalesce d.forest = [document] ∧
      (∀ (p : Part ω Transcript) (w : ω), ∃ v, g.write (.transcript p) document w = (.value (), v) ∧
        Transcript.textAt p v = Transcript.textAt p w ++ d.sentence) ∧
      (∀ x ∈ d.decisions [], x.Admissible ∨ s.Strays x.question x.answer) ∧
      (s.Modest → ∀ x ∈ d.decisions [], x.Admissible) := by
  obtain ⟨definition, context, u, c, u', defined, -, hbuild, rfl, -⟩ := document_eq_value_iff.1 h
  have flawless := sound.flawless (Grammar.production?_of_definition defined)
  have kept := Builder.exists_kept_of_build sound rehearsed.keeps flawless hbuild
  rw [builder_deferral plain] at kept
  obtain ⟨inner, rfl, hinner⟩ := kept
  let d : Derivation g.grammar (undeferred (ρ := κ)) (.reference start) :=
    .reference start rfl defined inner
  have hforest : Node.coalesce d.forest = [((Cursor.root start).grow inner.forest).document] := by
    rw [Cursor.document_grow rfl rfl inner.forest]
    exact Node.coalesce_tree start inner.forest []
  refine ⟨d, hforest, write_coalesced d hforest, hinner, fun modest x hx => ?_⟩
  have sensible : x.question.Sensible := inner.sensible sound flawless _ x hx
  exact (hinner x hx).resolve_right (modest.not_strays sensible x.answer)

end Generator

/-- Told how often to repeat what is to be repeated twice. -/
def Script.told (times : UInt32) : Script := .repeats .empty times 2 (some 2)

theorem Script.modest_told : (told 2).Modest := by
  intro bounds _ n settled
  by_cases hbounds : (bounds.least, bounds.most) = (2, some 2)
  · simp only [Prod.mk.injEq] at hbounds
    obtain ⟨hleast, hmost⟩ := hbounds
    rw [hleast, hmost] at settled
    cases settled
    rw [hleast, hmost]
    refine ⟨Nat.le_refl 2, fun most h => ?_⟩
    cases h
    exact Nat.le_refl 2
  · have hlookup : (told 2).counts.lookup (bounds.least, bounds.most) = none := by
      simp [told, repeats, empty, List.lookup_cons, beq_false_of_ne hbounds]
    simp [count, hlookup] at settled

/-- A syllable sung twice. -/
def Generator.chant (policy : Policy Unit (Input × Transcript)) :
    Generator Unit (Input × Transcript) where
  grammar :=
    { language := "chant"
      productions := Catalogue.empty.insert "chant" (.repeated (.literal "la") 2 (some 2)) }
  policy := policy
  replacements := []
  context := pure ()
  log := .silent
  budget := 10

namespace Generator

theorem chant_accepted (policy : Policy Unit (Input × Transcript)) :
    (chant policy).grammar.Accepted := by
  have built : (Grammar.build "chant" [("chant", .repeated (.literal "la") 2 (some 2))]).result =
      .ok (chant policy).grammar := by
    simp only [Grammar.build, Grammar.inspected, Grammar.inspect, Grammar.terms_eq]
    rfl
  exact .built built

/-- A person types a count that is out of bounds and then falls back on the script. -/
theorem exists_derivation_of_chant : ∃ policy : Policy Unit (Input × Transcript),
    policy.Rehearsed (.told 2) ∧ ∃ w,
      (chant policy).document "chant" ([some "5\n", some "\n"], .empty) =
        (.value (.tree "chant" [.literal "lala"]), w) ∧
      ∃ d : Derivation (chant policy).grammar (undeferred (ρ := Unit)) (.reference "chant"),
        Node.coalesce d.forest = [.tree "chant" [.literal "lala"]] ∧
        ∀ x ∈ d.decisions [], x.Admissible := by
  let policy : Policy Unit (Input × Transcript) :=
    .noted (.transcript .snd) (.asking ⟨.fst, .transcript .snd, .silent⟩ (some (.scripted (.told 2))))
  have rehearsed : policy.Rehearsed (.told 2) := .noted _ (.fallingBack _ .scripted)
  have made : ∃ w, (chant policy).document "chant" ([some "5\n", some "\n"], .empty) =
      (.value (.tree "chant" [.literal "lala"]), w) := ⟨_, by rfl⟩
  obtain ⟨w, made⟩ := made
  obtain ⟨d, hforest, -, -, hmodest⟩ :=
    exists_derivation_of_rehearsal (chant_accepted policy).sound rehearsed rfl made
  exact ⟨policy, rehearsed, w, made, d, hforest, hmodest Script.modest_told⟩

/-- Told to sing the syllable five times, a script leaves the grammar. -/
theorem chant_overdone :
    (chant (.scripted (.told 5))).grammar.Accepted ∧
      (chant (.scripted (.told 5))).policy.Rehearsed (.told 5) ∧
      (∃ w, (chant (.scripted (.told 5))).document "chant" ([], .empty) =
        (.value (.tree "chant" [.literal "lalalalala"]), w)) ∧
      ∀ d : Derivation (chant (.scripted (.told 5))).grammar (undeferred (ρ := Unit))
        (.reference "chant"), (∀ x ∈ d.decisions [], x.Admissible) → d.sentence ≠ "lalalalala" := by
  refine ⟨chant_accepted _, .scripted, ⟨_, by rfl⟩, fun d admissible => ?_⟩
  cases d with
  | deferred _ _ given => cases given
  | @reference _ definition kept defined inner =>
    have repeated : definition = .repeated (.literal "la") 2 (some 2) := by
      cases defined
      rfl
    subst repeated
    cases inner with
    | repetition _ _ times parts =>
      obtain ⟨hleast, hmost⟩ := admissible ⟨_, .count _ _, times⟩ List.mem_cons_self
      obtain rfl : times = 2 := Nat.le_antisymm (hmost 2 rfl) hleast
      rcases parts with _ | ⟨⟨⟩, _ | ⟨⟨⟩, ⟨⟩⟩⟩
      have twice : "la" ++ ("la" ++ "") ≠ "lalalalala" := by decide
      exact twice

end Generator

end Sentential
