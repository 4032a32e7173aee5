import Sentential.Fault

/-!
# Acts

An act changes a world and ends with a value, with a fault, or not at all: where the budget of a
run is used up before it ends, the act is unfinished. The world after a fault is kept, since what
was done before it stays done.
-/
namespace Sentential

inductive Outcome (α : Type) where
  | value (result : α)
  | failed (why : Fault)
  | unfinished

def Act (ω α : Type) : Type := ω → Outcome α × ω

namespace Act

variable {ω α β : Type}

@[inline] protected def pure (a : α) : Act ω α := fun w => (.value a, w)

@[inline] protected def bind (x : Act ω α) (f : α → Act ω β) : Act ω β := fun w =>
  match x w with
  | (.value a, w) => f a w
  | (.failed why, w) => (.failed why, w)
  | (.unfinished, w) => (.unfinished, w)

instance : Monad (Act ω) where
  pure := Act.pure
  bind := Act.bind

@[inline] def fail (why : Fault) : Act ω α := fun w => (.failed why, w)

@[inline] def unfinished : Act ω α := fun w => (.unfinished, w)

/-- Changes the world and cannot fail. -/
@[inline] def modify (f : ω → ω) : Act ω Unit := fun w => (.value (), f w)

@[inline] def ofExcept : Except Fault α → Act ω α
  | .ok a => Act.pure a
  | .error why => fail why

@[simp] theorem pure_run (a : α) (w : ω) : (pure a : Act ω α) w = (.value a, w) := rfl

@[simp] theorem fail_run (why : Fault) (w : ω) :
    (fail why : Act ω α) w = (.failed why, w) := rfl

@[simp] theorem unfinished_run (w : ω) : (unfinished : Act ω α) w = (.unfinished, w) := rfl

@[simp] theorem modify_run (f : ω → ω) (w : ω) : modify f w = (.value (), f w) := rfl

theorem bind_run (x : Act ω α) (f : α → Act ω β) (w : ω) :
    (x >>= f) w =
      match x w with
      | (.value a, w) => f a w
      | (.failed why, w) => (.failed why, w)
      | (.unfinished, w) => (.unfinished, w) := rfl

theorem bind_value {x : Act ω α} {f : α → Act ω β} {w w₁ : ω} {a : α}
    (h : x w = (.value a, w₁)) : (x >>= f) w = f a w₁ := by
  simp [bind_run, h]

theorem bind_failed {x : Act ω α} {f : α → Act ω β} {w w₁ : ω} {why : Fault}
    (h : x w = (.failed why, w₁)) : (x >>= f) w = (.failed why, w₁) := by
  simp [bind_run, h]

theorem bind_unfinished {x : Act ω α} {f : α → Act ω β} {w w₁ : ω}
    (h : x w = (.unfinished, w₁)) : (x >>= f) w = (.unfinished, w₁) := by
  simp [bind_run, h]

theorem bind_eq_value_iff {x : Act ω α} {f : α → Act ω β} {w v : ω} {r : β} :
    (x >>= f) w = (.value r, v) ↔ ∃ a u, x w = (.value a, u) ∧ f a u = (.value r, v) := by
  rw [bind_run]
  rcases x w with ⟨a | why | _, u⟩
  · exact ⟨fun h => ⟨a, u, rfl, h⟩, fun ⟨_, _, hx, h⟩ => by cases hx; exact h⟩
  · simp
  · simp

theorem ofExcept_eq_value_iff {x : Except Fault α} {a : α} {w v : ω} :
    ofExcept x w = (.value a, v) ↔ x = .ok a ∧ v = w := by
  cases x with
  | ok b => simp [ofExcept, Act.pure, eq_comm]
  | error why => simp [ofExcept]

instance : LawfulMonad (Act ω) := LawfulMonad.mk' (Act ω)
  (fun x => by
    funext w
    show (match x w with
      | (.value a, w) => (.value a, w)
      | (.failed why, w) => (.failed why, w)
      | (.unfinished, w) => (.unfinished, w)) = x w
    split <;> simp_all)
  (fun _ _ => rfl)
  (fun x f g => by
    funext w
    simp only [bind_run]
    cases h : x w with
    | mk r w₁ => cases r <;> rfl)

end Act

/-- A part of a world, which can be looked at and replaced. -/
structure Part (ω σ : Type) where
  get : ω → σ
  set : σ → ω → ω
  get_set : ∀ s w, get (set s w) = s := by intros; rfl
  set_get : ∀ w, set (get w) w = w := by intros; rfl
  set_set : ∀ s t w, set s (set t w) = set s w := by intros; rfl

namespace Part

variable {ω σ τ α : Type}

def whole : Part ω ω := ⟨id, fun s _ => s, by simp, by simp, by simp⟩

def fst : Part (σ × τ) σ := ⟨Prod.fst, fun s w => (s, w.2), by simp, by simp, by simp⟩

def snd : Part (σ × τ) τ := ⟨Prod.snd, fun t w => (w.1, t), by simp, by simp, by simp⟩

def inside (p : Part ω σ) (q : Part σ τ) : Part ω τ where
  get w := q.get (p.get w)
  set t w := p.set (q.set t (p.get w)) w
  get_set t w := by rw [p.get_set, q.get_set]
  set_get w := by rw [q.set_get, p.set_get]
  set_set s t w := by rw [p.get_set, q.set_set, p.set_set]

/-- Does to a world what an act does to its part. -/
def perform (p : Part ω σ) (x : Act σ α) : Act ω α := fun w =>
  let (result, s) := x (p.get w)
  (result, p.set s w)

theorem perform_run (p : Part ω σ) (x : Act σ α) (w : ω) :
    p.perform x w = ((x (p.get w)).1, p.set (x (p.get w)).2 w) := rfl

def modify (p : Part ω σ) (f : σ → σ) (w : ω) : ω := p.set (f (p.get w)) w

end Part

end Sentential
