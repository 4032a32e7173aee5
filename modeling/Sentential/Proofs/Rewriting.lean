import Mathlib.Logic.Relation
import Sentential.Proofs.Approximation
import Sentential.Proofs.Tandem

/-!
# Rewriting grammars

Rewritings of a definition that change nothing about what it stands for: text is taken apart,
sequences are joined, an empty term is put in another way, a repetition whose count is fixed is
written out. They may be made at any depth and undone, as long as no alternative becomes or ceases
to be the end of input, which would change what there is to choose from. Documents are built from a
rewritten grammar just as from the original one, with the same draws.
-/
namespace Sentential

variable {ρ ω σ : Type}

theorem Cursor.write_write (c : Cursor ρ) (x y : String) :
    (c.write x).write y = c.write (x ++ y) := by
  by_cases hx : x = ""
  · subst hx
    rw [String.empty_append]
    rfl
  · by_cases hy : y = ""
    · subst hy
      rw [String.append_empty]
      rfl
    · have hxy : x ++ y ≠ "" := fun h => hx (String.append_eq_empty_iff.1 h).1
      simp [write, String.isEmpty_iff, hx, hy, extendLatest_extendLatest]

/-- One rewriting, at some place of a term. -/
inductive Term.Rewrites : Term → Term → Prop
  | text (x y : String) : Rewrites (.literal (x ++ y)) (.sequence [.literal x, .literal y])
  | splice (before inner after : List Term) :
      Rewrites (.sequence (before ++ .sequence inner :: after)) (.sequence (before ++ inner ++ after))
  | only (t : Term) : Rewrites (.sequence [t]) t
  | nothing : Rewrites .epsilon (.sequence [])
  | blank : Rewrites .epsilon (.literal "")
  | fixed (t : Term) (n : UInt32) (expected : Option UInt32) :
      Rewrites (.repetition t ⟨n, some n, expected⟩) (.sequence (List.replicate n.toNat t))
  | inSequence {t t' : Term} (before after : List Term) (h : Rewrites t t') :
      Rewrites (.sequence (before ++ t :: after)) (.sequence (before ++ t' :: after))
  | inAlternatives {t t' : Term} (before after : List Choice) (weight : Float) (h : Rewrites t t')
      (kept : t.isEndOfInput = t'.isEndOfInput) :
      Rewrites (.alternatives (before ++ ⟨t, weight⟩ :: after))
        (.alternatives (before ++ ⟨t', weight⟩ :: after))
  | inOptional {t t' : Term} (p : Float) (h : Rewrites t t') :
      Rewrites (.optional t p) (.optional t' p)
  | inRepetition {t t' : Term} (bounds : Bounds) (h : Rewrites t t') :
      Rewrites (.repetition t bounds) (.repetition t' bounds)

/-- One rewriting in one of the definitions of a grammar. -/
structure Grammar.Rewrites (g h : Grammar) : Prop where
  language : g.language = h.language
  definitions : ∃ before name t t' after, t.Rewrites t' ∧
    g.productions.entries = before ++ (name, t) :: after ∧
    h.productions.entries = before ++ (name, t') :: after

namespace Builder

open Act (Approximates)

variable {g h : Grammar} {s : Source σ} {t t' : Term} {d e : Nat}

section Rewritings

variable (ρ s g d)

theorem generate_singleton (t : Term) :
    (drawing g s : Builder ρ σ).generate (d + 1) (.sequence [t]) = (drawing g s).generate d t := by
  rw [generate_sequence, List.forM_eq_forM, List.forM_cons, List.forM_nil]
  exact bind_pure _

theorem generate_text (x y : String) :
    (drawing g s : Builder ρ σ).generate (d + 2) (.sequence [.literal x, .literal y]) =
      (drawing g s).generate (d + 1) (.literal (x ++ y)) := by
  funext ⟨c, w⟩
  change (Outcome.value (), ((c.write x).write y, w)) = (Outcome.value (), (c.write (x ++ y), w))
  rw [Cursor.write_write]

/-- Nothing is drawn for a count that is fixed. -/
theorem generate_fixed (t : Term) (n : UInt32) (expected : Option UInt32) :
    (drawing g s : Builder ρ σ).generate (d + 1) (.repetition t ⟨n, some n, expected⟩) =
      (List.replicate n.toNat t).forM ((drawing g s).generate d) := by
  have drawn (x : σ) : s.times ⟨n, some n, expected⟩ x = (some n.toNat, x) := by
    simp [Source.times]
  have asked : (drawing g s : Builder ρ σ).ask (.count t ⟨n, some n, expected⟩) = pure n.toNat := by
    funext ⟨c, x⟩
    have answered : s.answer (.count t ⟨n, some n, expected⟩) x = (.value n.toNat, x) := by
      simp only [Source.answer, drawn]
    change ((s.answer (.count t ⟨n, some n, expected⟩) x).1,
      (c, (s.answer (.count t ⟨n, some n, expected⟩) x).2)) = _
    rw [answered]
    rfl
  rw [generate_repetition, asked, pure_bind]

theorem forM_splice (before inner after : List Term) :
    (before ++ .sequence inner :: after).forM ((drawing g s : Builder ρ σ).generate d) =
      before.forM ((drawing g s).generate d) >>= fun _ =>
        (drawing g s).generate d (.sequence inner) >>= fun _ =>
          after.forM ((drawing g s).generate d) := by
  simp only [List.forM_eq_forM, List.forM_append, List.forM_cons]

theorem forM_spliced (before inner after : List Term) :
    (before ++ inner ++ after).forM ((drawing g s : Builder ρ σ).generate d) =
      before.forM ((drawing g s).generate d) >>= fun _ =>
        (drawing g s).generate (d + 1) (.sequence inner) >>= fun _ =>
          after.forM ((drawing g s).generate d) := by
  simp only [generate_sequence, List.forM_eq_forM, List.forM_append, bind_assoc]

end Rewritings

/-- Lists that differ in one place are related where these elements and all others are. -/
theorem forall₂_replaced {α : Type} {R : α → α → Prop} {a b : α} (before after : List α)
    (same : ∀ x, R x x) (hab : R a b) :
    List.Forall₂ R (before ++ a :: after) (before ++ b :: after) :=
  List.rel_append (List.forall₂_same.2 fun x _ => same x)
    (.cons hab (List.forall₂_same.2 fun x _ => same x))

theorem below_both_of_succ
    (deeper : ∀ d, Below ρ s g (d + 1) t g (d + 2) t' ∧ Below ρ s g (d + 1) t' g (d + 2) t)
    (d : Nat) : Below ρ s g d t g (d + 1) t' ∧ Below ρ s g d t' g (d + 1) t := by
  cases d with
  | zero => exact ⟨.unfinished _, .unfinished _⟩
  | succ d => exact deeper d

/-- A rewritten term is generated like the original one, within one more level of recursion, and the
other way round. -/
theorem below_of_rewrites (rewrites : t.Rewrites t') (d : Nat) :
    Below ρ s g d t g (d + 1) t' ∧ Below ρ s g d t' g (d + 1) t := by
  induction rewrites generalizing d with
  | text x y =>
    refine below_both_of_succ (fun d => ⟨.of_eq (generate_text ρ g s d x y).symm, ?_⟩) d
    cases d with
    | zero => exact fun _ => .inl rfl
    | succ d =>
      exact (Approximates.of_eq (generate_text ρ g s d x y)).trans (below_of_le (by omega) _)
  | splice before inner after =>
    refine below_both_of_succ (fun d => ?_) d
    have same (ts : List Term) : (ts.forM ((drawing g s : Builder ρ σ).generate d)).Approximates
        (ts.forM ((drawing g s).generate (d + 1))) :=
      .forM (List.forall₂_same.2 fun t _ => below_succ d t)
    have out : Below ρ s g d (.sequence inner) g (d + 2) (.sequence inner) :=
      below_of_le (by omega) _
    simp only [Below, generate_sequence, forM_splice, forM_spliced] at out ⊢
    exact ⟨(same before).bind fun _ => out.bind fun _ => same after,
      (same before).bind fun _ => (Approximates.refl _).bind fun _ => same after⟩
  | only t =>
    refine ⟨?_, .of_eq (generate_singleton ρ g s d t).symm⟩
    cases d with
    | zero => exact .unfinished _
    | succ d =>
      exact (Approximates.of_eq (generate_singleton ρ g s d t)).trans (below_of_le (by omega) t)
  | nothing => exact below_both_of_succ (fun d => ⟨.of_eq rfl, .of_eq rfl⟩) d
  | blank => exact below_both_of_succ (fun d => ⟨.of_eq rfl, .of_eq rfl⟩) d
  | fixed t n expected =>
    refine below_both_of_succ (fun d => ?_) d
    have copies := below_replicate (ρ := ρ) (s := s) (below_succ (g := g) d t) n.toNat
    rw [Below, Below, generate_fixed, generate_fixed, generate_sequence, generate_sequence]
    exact ⟨copies, copies⟩
  | inSequence before after _ ih =>
    refine below_both_of_succ (fun d => ?_) d
    exact ⟨below_sequence (forall₂_replaced before after (below_succ d) (ih d).1),
      below_sequence (forall₂_replaced before after (below_succ d) (ih d).2)⟩
  | inAlternatives before after weight _ kept ih =>
    refine below_both_of_succ (fun d => ?_) d
    have same (c : Choice) : c.weight = c.weight ∧ c.item.isEndOfInput = c.item.isEndOfInput ∧
      Below ρ s g d c.item g (d + 1) c.item := ⟨rfl, rfl, below_succ d c.item⟩
    exact ⟨below_alternatives (forall₂_replaced before after same ⟨rfl, kept, (ih d).1⟩),
      below_alternatives (forall₂_replaced before after same ⟨rfl, kept.symm, (ih d).2⟩)⟩
  | inOptional p _ ih =>
    exact below_both_of_succ (fun d => ⟨below_optional (ih d).1 p, below_optional (ih d).2 p⟩) d
  | inRepetition bounds _ ih =>
    exact below_both_of_succ
      (fun d => ⟨below_repetition (ih d).1 bounds, below_repetition (ih d).2 bounds⟩) d

/-- Grammars whose definitions are the same or rewritten into each other. -/
def Redefined (g h : Grammar) : Prop :=
  ∀ name, g.definition name = h.definition name ∨
    ∃ t t', (t.Rewrites t' ∨ t'.Rewrites t) ∧ g.definition name = .ok t ∧ h.definition name = .ok t'

theorem Redefined.symm (gh : Redefined g h) : Redefined h g := by
  intro name
  rcases gh name with same | ⟨t, t', rewrites, ht, ht'⟩
  · exact .inl same.symm
  · exact .inr ⟨t', t, rewrites.symm, ht', ht⟩

theorem redefined_of_rewrites (gh : g.Rewrites h) : Redefined g h := by
  obtain ⟨language, before, name, t, t', after, rewrites, hg, hh⟩ := gh
  intro n
  simp only [Grammar.definition, Grammar.production?, Catalogue.find?, hg, hh, List.lookup_append,
    Grammar.unknown, language]
  cases before.lookup n with
  | some u => exact .inl rfl
  | none =>
    rw [List.lookup_cons, List.lookup_cons]
    cases n == name with
    | false => exact .inl rfl
    | true => exact .inr ⟨t, t', .inl rewrites, rfl, rfl⟩

/-- The definition of a production is generated like the one in the other grammar, given that terms
are. -/
theorem below_definition (gh : Redefined g h) (each : ∀ t, Below ρ s g d t h e t) {name : String}
    (ht : g.definition name = .ok t) :
    ∃ t', h.definition name = .ok t' ∧ Below ρ s g d t h (e + 1) t' := by
  rcases gh name with same | ⟨u, t', rewrites, hu, ht'⟩
  · exact ⟨t, same ▸ ht, (each t).trans (below_succ e t)⟩
  · rw [ht] at hu
    cases hu
    refine ⟨t', ht', (each t).trans ?_⟩
    rcases rewrites with rewrites | rewrites
    · exact (below_of_rewrites rewrites e).1
    · exact (below_of_rewrites rewrites e).2

/-- Terms are generated alike in a grammar with rewritten definitions, within twice the depth: each
level may lead into a definition, and that takes one more. -/
theorem below_redefined (gh : Redefined g h) (d : Nat) (t : Term) :
    Below ρ s g d t h (2 * d) t := by
  induction d generalizing t with
  | zero => exact .unfinished _
  | succ d ih =>
    have deeper (t : Term) : Below ρ s g d t h (2 * d + 1) t := (ih t).trans (below_succ _ t)
    refine below_of_each deeper (fun name => ?_) t
    refine below_reference (fun t ht => below_definition gh ih ht) fun why hwhy => ?_
    rcases gh name with same | ⟨t, -, -, ht, -⟩
    · rw [← same, hwhy]
    · rw [ht] at hwhy
      cases hwhy

/-- Building the document of a production ends with a result. -/
def Concludes (b : Builder ρ ω) (name : String) (c : Cursor ρ) (w : ω) :
    Outcome (Cursor ρ) → ω → Prop
  | .value c', v => ∃ n, b.define n name c w = (.value c', v)
  | .failed why, v => ∃ n, b.define n name c w = (.failed why, v)
  | .unfinished, _ => False

/-- How building ends is how the recursion on the definition ends. -/
theorem concludes_iff_generate {b : Builder ρ ω} {name : String} {c : Cursor ρ} {w v : ω}
    {r : Outcome (Cursor ρ)} {t : Term} (ht : b.grammar.definition name = .ok t) :
    b.Concludes name c w r v ↔ match r with
      | .value c' => ∃ d, b.generate d t (c, w) = (.value (), (c', v))
      | .failed why => ∃ d c', b.generate d t (c, w) = (.failed why, (c', v))
      | .unfinished => False := by
  have hdefine (n : Nat) : b.define n name c w = b.build n c t w := by
    rw [define, ht]
    rfl
  obtain ⟨built, failed⟩ := refines b c t w
  cases r with
  | value c' =>
    simp only [Concludes, hdefine, build_eq_value_iff]
    exact built c' v
  | failed why =>
    simp only [Concludes, hdefine, build_eq_failed_iff]
    constructor
    · rintro ⟨n, s, hn⟩
      obtain ⟨d, hd⟩ := (failed why s.cursor v).1 ⟨n, s, rfl, hn⟩
      exact ⟨d, s.cursor, hd⟩
    · rintro ⟨d, c', hd⟩
      obtain ⟨n, s, -, hn⟩ := (failed why c' v).2 ⟨d, hd⟩
      exact ⟨n, s, hn⟩
  | unfinished => exact Iff.rfl

theorem Redefined.definition_eq_error (gh : Redefined g h) {name : String} {why : Fault}
    (hg : g.definition name = .error why) : h.definition name = .error why := by
  rcases gh name with same | ⟨t, -, -, ht, -⟩
  · rw [← same, hg]
  · rw [ht] at hg
    cases hg

theorem exists_definition_below (gh : Redefined g h) {name : String}
    (hg : g.definition name = .ok t) :
    ∃ t', h.definition name = .ok t' ∧ ∀ d, Below ρ s g d t h (2 * d + 1) t' := by
  have each (d : Nat) : ∃ t', h.definition name = .ok t' ∧ Below ρ s g d t h (2 * d + 1) t' :=
    below_definition gh (below_redefined gh d) hg
  obtain ⟨t', ht', -⟩ := each 0
  refine ⟨t', ht', fun d => ?_⟩
  obtain ⟨u, hu, hbelow⟩ := each d
  rw [ht'] at hu
  cases hu
  exact hbelow

/-- What building ends with is what it ends with in a grammar with rewritten definitions. -/
theorem concludes_of_redefined (gh : Redefined g h) {name : String} {c : Cursor ρ} {x y : σ}
    {r : Outcome (Cursor ρ)} (concludes : (drawing g s).Concludes name c x r y) :
    (drawing h s).Concludes name c x r y := by
  cases hg : g.definition name with
  | error why =>
    have hh := gh.definition_eq_error hg
    have hdefine (n : Nat) : (drawing h s).define n name c x = (drawing g s).define n name c x := by
      simp only [define, drawing, hg, hh]
      rfl
    cases r with
    | value | failed =>
      simp only [Concludes, hdefine]
      exact concludes
    | unfinished => exact concludes
  | ok t =>
    obtain ⟨t', ht', below⟩ := exists_definition_below (ρ := ρ) (s := s) gh hg
    rw [concludes_iff_generate hg] at concludes
    rw [concludes_iff_generate ht']
    cases r with
    | value c' =>
      obtain ⟨d, hd⟩ := concludes
      exact ⟨2 * d + 1, (below d).eq_of_value hd⟩
    | failed why =>
      obtain ⟨d, c', hd⟩ := concludes
      exact ⟨2 * d + 1, c', (below d).eq_of_failed hd⟩
    | unfinished => exact concludes

/-- Draws from a source in a part of the world; nothing is deferred. -/
def drawn (g : Grammar) (p : Part ω σ) (s : Source σ) (log : Log ω) : Builder ρ ω :=
  ⟨g, .within p (.chance s), fun _ => none, log⟩

/-- What else there is in the world makes no difference to building, as long as the log keeps off
the source. -/
theorem concludes_drawn_iff {p : Part ω σ} {log : Log ω}
    (spared : ∀ level text w, p.get (log.record level text w) = p.get w) {name : String}
    {c : Cursor ρ} {w : ω} {r : Outcome (Cursor ρ)} {y : σ} :
    (∃ v, (drawn g p s log).Concludes name c w r v ∧ p.get v = y) ↔
      (drawing g s).Concludes name c (p.get w) r y := by
  have both : (Tandem.part p).Builders (drawing g s) (drawn g p s log : Builder ρ ω) := by
    refine ⟨rfl, rfl, fun c q => Tandem.part_perform p _,
      fun level text => ⟨fun _ lost => lost.elim, ?_⟩⟩
    rintro x w rfl
    exact .inr ⟨rfl, spared level text w⟩
  have ends (o : Outcome (Cursor ρ)) :
      (∃ v, (∃ n, (drawn g p s log).define n name c w = (o, v)) ∧ p.get v = y) ↔
        ∃ n, (drawing g s).define n name c (p.get w) = (o, y) := by
    have same (n : Nat) := (both.define n name c).keeps (p.get w) w rfl
    constructor
    · rintro ⟨v, ⟨n, hn⟩, rfl⟩
      rcases same n with lost | ⟨hresult, hsource⟩
      · exact lost.elim
      · rw [hn] at hresult hsource
        exact ⟨n, Prod.ext hresult hsource.symm⟩
    · rintro ⟨n, hn⟩
      rcases same n with lost | ⟨hresult, hsource⟩
      · exact lost.elim
      · rw [hn] at hresult hsource
        exact ⟨_, ⟨n, Prod.ext hresult.symm rfl⟩, hsource⟩
  cases r with
  | value c' => exact ends (.value c')
  | failed why => exact ends (.failed why)
  | unfinished => exact ⟨fun ⟨_, h, _⟩ => h, fun h => h.elim⟩

/-- Grammars that differ by rewritings, made or undone, are built from alike: from both or from none
of them building ends, with the same document or the same fault, and with the source in the same
state. The source may be any, also one that keeps a list of its draws. -/
theorem concludes_rewritten_iff (rewritten : Relation.EqvGen Grammar.Rewrites g h) (p : Part ω σ)
    (s : Source σ) (log : Log ω)
    (spared : ∀ level text w, p.get (log.record level text w) = p.get w) (start : String) (w : ω)
    (r : Outcome (Cursor ρ)) (y : σ) :
    (∃ v, (drawn g p s log).Concludes start (.root start) w r v ∧ p.get v = y) ↔
      ∃ v, (drawn h p s log).Concludes start (.root start) w r v ∧ p.get v = y := by
  rw [concludes_drawn_iff spared, concludes_drawn_iff spared]
  induction rewritten with
  | rel g h gh =>
    have redefined := redefined_of_rewrites gh
    exact ⟨concludes_of_redefined redefined, concludes_of_redefined redefined.symm⟩
  | refl g => exact Iff.rfl
  | symm g h _ ih => exact ih.symm
  | trans f g h _ _ ih ih' => exact ih.trans ih'

/-- A song with the given definition. -/
def song (definition : Term) : Grammar where
  language := "song"
  productions := Catalogue.empty.insert "song" definition

/-- A repetition whose count is fixed and the text that it stands for. -/
theorem concludes_song : Relation.EqvGen Grammar.Rewrites
      (song (.repetition (.literal "la") ⟨2, some 2, none⟩)) (song (.literal "lala")) ∧
    ∃ v, (drawn (song (.literal "lala")) .whole Recorded.source .silent).Concludes "song"
        (.root "song") (.ofLists [] []) (.value ((Cursor.root "song" : Cursor Unit).write "lala")) v ∧
      v = .ofLists [] [] := by
  have out : (song (.repetition (.literal "la") ⟨2, some 2, none⟩)).Rewrites
      (song (.sequence [.literal "la", .literal "la"])) :=
    ⟨rfl, [], "song", _, _, [], .fixed (.literal "la") 2 none, rfl, rfl⟩
  have joined : (song (.literal "lala")).Rewrites
      (song (.sequence [.literal "la", .literal "la"])) :=
    ⟨rfl, [], "song", _, _, [], .text "la" "la", rfl, rfl⟩
  have both := Relation.EqvGen.trans _ _ _ (.rel _ _ out) (.symm _ _ (.rel _ _ joined))
  refine ⟨both, (concludes_rewritten_iff both .whole Recorded.source .silent (fun _ _ _ => rfl) "song"
    _ _ _).1 ⟨_, ⟨4, ?_⟩, rfl⟩⟩
  rfl

end Builder

end Sentential
