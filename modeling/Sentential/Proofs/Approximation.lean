import Mathlib.Data.List.Forall2
import Sentential.Policy.Chance
import Sentential.Proofs.Recursion

/-!
# Recursion to a greater depth

An act approximates another one when it does the same, unless it is unfinished. Recursion to some
depth approximates recursion to a greater depth, in grammars whose definitions approximate each
other. With answers drawn from a source the terms themselves may differ too, as long as they ask the
source for the same: what it draws for a choice depends on the biases of the alternatives only.
-/
namespace Sentential

variable {ρ ω α β σ : Type}

namespace Act

/-- The first act does what the second one does, unless it is unfinished. -/
def Approximates (x y : Act ω α) : Prop := ∀ w, (x w).1 = .unfinished ∨ x w = y w

namespace Approximates

variable {x y z : Act ω α}

theorem refl (x : Act ω α) : x.Approximates x := fun _ => .inr rfl

theorem of_eq (h : x = y) : x.Approximates y := h ▸ refl x

theorem trans (h : x.Approximates y) (h' : y.Approximates z) : x.Approximates z := by
  intro w
  rcases h w with hx | hxy
  · exact .inl hx
  · rw [hxy]
    exact h' w

theorem unfinished (y : Act ω α) : Approximates Act.unfinished y := fun _ => .inl rfl

theorem bind {f g : α → Act ω β} (h : x.Approximates y) (h' : ∀ a, (f a).Approximates (g a)) :
    (x >>= f).Approximates (y >>= g) := by
  intro w
  rw [bind_run, bind_run]
  rcases h w with hx | hxy
  · left
    rcases hw : x w with ⟨a | why | _, v⟩
    · rw [hw] at hx
      cases hx
    · rw [hw] at hx
      cases hx
    · rfl
  · rw [hxy]
    rcases y w with ⟨a | why | _, v⟩
    · exact h' a v
    · exact .inr rfl
    · exact .inr rfl

/-- A finished act has done what every act does that it approximates. -/
theorem eq_of_value (h : x.Approximates y) {w v : ω} {a : α} (hx : x w = (.value a, v)) :
    y w = (.value a, v) := by
  rcases h w with hw | hw
  · rw [hx] at hw
    cases hw
  · rw [← hw, hx]

theorem eq_of_failed (h : x.Approximates y) {w v : ω} {why : Fault} (hx : x w = (.failed why, v)) :
    y w = (.failed why, v) := by
  rcases h w with hw | hw
  · rw [hx] at hw
    cases hw
  · rw [← hw, hx]

theorem forM {γ δ : Type} {f : γ → Act ω Unit} {g : δ → Act ω Unit} {xs : List γ} {ys : List δ}
    (h : List.Forall₂ (fun x y => (f x).Approximates (g y)) xs ys) :
    (xs.forM f).Approximates (ys.forM g) := by
  induction h with
  | nil => exact refl _
  | cons hxy _ ih => exact bind hxy fun _ => ih

end Approximates

end Act

open Act (Approximates)

namespace Weighted

variable {γ : Type} {xs ys : List (Weighted Float γ)}

theorem locate?_congr (h : xs.map weight = ys.map weight) (x : Float) :
    (locate? xs x).map Fin.val = (locate? ys x).map Fin.val := by
  induction xs generalizing ys x with
  | nil =>
    obtain rfl : ys = [] := List.map_eq_nil_iff.1 h.symm
    rfl
  | cons a xs ih =>
    obtain ⟨b, ys, rfl⟩ : ∃ b bs, ys = b :: bs := by
      cases ys with
      | nil => cases h
      | cons b bs => exact ⟨b, bs, rfl⟩
    obtain ⟨hweight, hrest⟩ := List.cons.inj h
    rw [locate?, locate?, hweight]
    split
    · rfl
    · have later := congrArg (Option.map Nat.succ) (ih hrest (x - b.weight))
      simpa only [Option.map_map, Function.comp_def, Fin.val_succ, Nat.succ_eq_add_one] using later

/-- Which position is picked depends on the weights only. -/
theorem pick?_congr (h : xs.map weight = ys.map weight) (x : Float) :
    (pick? xs x).map Fin.val = (pick? ys x).map Fin.val := by
  have htotal : total xs = total ys := by
    have sums (items : List (Weighted Float γ)) :
        total items = (items.map weight).foldl (· + ·) 0 := by rw [List.foldl_map]; rfl
    rw [sums, sums, h]
  have hlast : (last? xs).map Fin.val = (last? ys).map Fin.val := by
    have hlength : xs.length = ys.length := by simpa using congrArg List.length h
    cases xs <;> cases ys <;> first | rfl | simp_all [last?]
  rw [pick?, pick?, htotal, Option.map_or, Option.map_or, locate?_congr h, hlast]

end Weighted

/-- A source makes the same draws for alternatives of the same biases, and picks at the same
position. -/
theorem Source.biased_congr (s : Source σ) {options options' : List Choice}
    (h : options.map Weighted.weight = options'.map Weighted.weight) (g : σ) :
    (s.biased options g).1.map Fin.val = (s.biased options' g).1.map Fin.val ∧
      (s.biased options g).2 = (s.biased options' g).2 := by
  have hempty : options.isEmpty = options'.isEmpty := by
    simpa using congrArg List.isEmpty h
  rw [biased, biased, hempty]
  split
  · exact ⟨rfl, rfl⟩
  · exact ⟨Weighted.pick?_congr h _, rfl⟩

namespace Builder

/-- Draws from a source that is all the world; nothing is deferred and nothing logged. -/
def drawing (g : Grammar) (s : Source σ) : Builder ρ σ := ⟨g, .chance s, fun _ => none, .silent⟩

variable {g h : Grammar} {s : Source σ} {d e : Nat} {t t' : Term}

section Equations

/-! Writing a term to the log does nothing here. -/

variable {ts : List Term} {options : List Choice} {p : Float} {bounds : Bounds} {name : String}

theorem generate_sequence : (drawing g s : Builder ρ σ).generate (d + 1) (.sequence ts) =
    ts.forM ((drawing g s).generate d) := rfl

theorem generate_alternatives : (drawing g s : Builder ρ σ).generate (d + 1) (.alternatives options) =
    (drawing g s).ask (.choice (eligible options)) >>= fun i =>
      (drawing g s).generate d ((eligible options).get i).item := rfl

theorem generate_optional : (drawing g s : Builder ρ σ).generate (d + 1) (.optional t p) =
    (drawing g s).ask (.inclusion t p) >>= fun yes =>
      (List.replicate (if yes then 1 else 0) t).forM ((drawing g s).generate d) := rfl

theorem generate_repetition : (drawing g s : Builder ρ σ).generate (d + 1) (.repetition t bounds) =
    (drawing g s).ask (.count t bounds) >>= fun count =>
      (List.replicate count t).forM ((drawing g s).generate d) := rfl

theorem generate_reference : (drawing g s : Builder ρ σ).generate (d + 1) (.reference name) =
    Act.ofExcept (g.definition name) >>= fun definition =>
      edit (fun c => c.enter name) >>= fun _ =>
        (drawing g s).generate d definition >>= fun _ => edit Cursor.leave := rfl

end Equations

section Congruence

/-! Terms of the same kind, to depths that may differ. -/

variable {ρ : Type} {ts ts' : List Term}

/-- What is generated for the first term approximates what is generated for the second. -/
def Below (ρ : Type) (s : Source σ) (g : Grammar) (d : Nat) (t : Term) (h : Grammar) (e : Nat)
    (t' : Term) : Prop :=
  ((drawing g s : Builder ρ σ).generate d t).Approximates ((drawing h s).generate e t')

theorem below_sequence (each : List.Forall₂ (fun t t' => Below ρ s g d t h e t') ts ts') :
    Below ρ s g (d + 1) (.sequence ts) h (e + 1) (.sequence ts') := by
  rw [Below, generate_sequence, generate_sequence]
  exact .forM each

theorem below_replicate (each : Below ρ s g d t h e t') (n : Nat) :
    ((List.replicate n t).forM ((drawing g s : Builder ρ σ).generate d)).Approximates
      ((List.replicate n t').forM ((drawing h s).generate e)) := by
  induction n with
  | zero => exact .refl _
  | succ n ih => exact .bind each fun _ => ih

theorem below_optional (each : Below ρ s g d t h e t') (p : Float) :
    Below ρ s g (d + 1) (.optional t p) h (e + 1) (.optional t' p) := by
  rw [Below, generate_optional, generate_optional]
  exact .bind (.refl ((drawing g s : Builder ρ σ).ask (.inclusion t p))) fun yes =>
    below_replicate each _

theorem below_repetition (each : Below ρ s g d t h e t') (bounds : Bounds) :
    Below ρ s g (d + 1) (.repetition t bounds) h (e + 1) (.repetition t' bounds) := by
  rw [Below, generate_repetition, generate_repetition]
  exact .bind (.refl ((drawing g s : Builder ρ σ).ask (.count t bounds))) fun count =>
    below_replicate each _

/-- Alternatives of the same biases are chosen from alike. -/
theorem below_choice {options options' : List Choice} (each : List.Forall₂ (fun c c' : Choice =>
      c.weight = c'.weight ∧ Below ρ s g d c.item h e c'.item) options options') :
    Act.Approximates
      ((drawing g s : Builder ρ σ).ask (.choice options) >>= fun i =>
        (drawing g s).generate d (options.get i).item)
      ((drawing h s).ask (.choice options') >>= fun i =>
        (drawing h s).generate e (options'.get i).item) := by
  have weights : options.map Weighted.weight = options'.map Weighted.weight := by
    induction each with
    | nil => rfl
    | cons hc _ ih => rw [List.map_cons, List.map_cons, hc.1, ih]
  rintro ⟨c, x⟩
  obtain ⟨hpicked, hleft⟩ := s.biased_congr weights x
  rcases hb : s.biased options x with ⟨i, y⟩
  rcases hb' : s.biased options' x with ⟨i', y'⟩
  rw [hb, hb'] at hpicked hleft
  obtain rfl : y = y' := hleft
  have asked {us : List Choice} {f : Grammar} : (drawing f s : Builder ρ σ).ask (.choice us) (c, x) =
      ((s.answer (.choice us) x).1, (c, (s.answer (.choice us) x).2)) := rfl
  simp only [Act.bind_run, asked, Source.answer, hb, hb']
  cases i with
  | none =>
    obtain rfl : i' = none := Option.map_eq_none_iff.1 hpicked.symm
    exact .inr rfl
  | some i =>
    obtain ⟨j, rfl, hj⟩ := Option.map_eq_some_iff.1 hpicked.symm
    have related := (List.forall₂_iff_get.1 each).2 i i.isLt (hj ▸ j.isLt)
    have hij : (⟨i, hj ▸ j.isLt⟩ : Fin options'.length) = j := Fin.ext hj.symm
    rw [hij] at related
    exact related.2 (c, y)

/-- Options that rank alike and stand for terms that are generated alike. -/
theorem below_alternatives {options options' : List Choice}
    (each : List.Forall₂ (fun c c' : Choice => c.weight = c'.weight ∧
      c.item.isEndOfInput = c'.item.isEndOfInput ∧ Below ρ s g d c.item h e c'.item)
      options options') :
    Below ρ s g (d + 1) (.alternatives options) h (e + 1) (.alternatives options') := by
  rw [Below, generate_alternatives, generate_alternatives]
  apply below_choice
  have kept := List.rel_filter (p := Weighted.isEligible) (q := Weighted.isEligible)
    (fun {c c'} hc => by simp only [Weighted.isEligible, hc.1, hc.2.1]) each
  exact kept.imp fun _ _ hc => ⟨hc.1, hc.2.2⟩

theorem below_reference {name : String}
    (defined : ∀ t, g.definition name = .ok t →
      ∃ t', h.definition name = .ok t' ∧ Below ρ s g d t h e t')
    (undefined : ∀ why, g.definition name = .error why → h.definition name = .error why) :
    Below ρ s g (d + 1) (.reference name) h (e + 1) (.reference name) := by
  rw [Below, generate_reference, generate_reference]
  cases hg : g.definition name with
  | error why =>
    rw [undefined why hg]
    exact .refl _
  | ok t =>
    obtain ⟨t', ht', below⟩ := defined t hg
    rw [ht']
    have inside : Act.Approximates
        (edit (fun c => c.enter name) >>= fun _ =>
          (drawing g s).generate d t >>= fun _ => edit Cursor.leave)
        (edit (fun c => c.enter name) >>= fun _ =>
          (drawing h s).generate e t' >>= fun _ => edit Cursor.leave) :=
      .bind (.refl _) fun _ => .bind below fun _ => .refl _
    exact inside

/-- Terms are generated alike one level further down when references are. -/
theorem below_of_each (each : ∀ t, Below ρ s g d t h e t)
    (references : ∀ name, Below ρ s g (d + 1) (.reference name) h (e + 1) (.reference name))
    (t : Term) : Below ρ s g (d + 1) t h (e + 1) t := by
  cases t with
  | literal | epsilon | characters => exact .of_eq rfl
  | sequence terms => exact below_sequence (List.forall₂_same.2 fun t _ => each t)
  | alternatives options =>
    exact below_alternatives (List.forall₂_same.2 fun c _ => ⟨rfl, rfl, each c.item⟩)
  | optional t p => exact below_optional (each t) p
  | repetition t bounds => exact below_repetition (each t) bounds
  | reference name => exact references name

end Congruence

/-- What is generated at some depth is generated at a greater depth too. -/
theorem below_succ (d : Nat) (t : Term) : Below ρ s g d t g (d + 1) t := by
  induction d generalizing t with
  | zero => exact .unfinished _
  | succ d ih =>
    exact below_of_each ih
      (fun name => below_reference (fun t ht => ⟨t, ht, ih t⟩) fun _ hwhy => hwhy) t

theorem below_of_le (h : d ≤ e) (t : Term) : Below ρ s g d t g e t := by
  induction h with
  | refl => exact .refl _
  | step _ ih => exact ih.trans (below_succ _ t)

end Builder

end Sentential
