import Sentential.Json.Shape

/-!
# Readers on written texts

What a reader does in front of a written value: it gives what the value stands for and stops where
the value ends, or it fails. Both can be the case for one reader, depending on what the value holds,
and the two are followed side by side from a reader to the readers that it is made of.
-/
namespace Sentential.Json.Reader

variable {α β : Type} {r : Reader α} {f : α → Reader β} {input mid rest pad : Bytes} {v : α} {w : β}
  {P Q : Prop}

theorem bind_run (r : Reader α) (f : α → Reader β) (input : Bytes) :
    (r >>= f) input = r input >>= fun x => f x.1 x.2 := rfl

theorem bind_of_ok (h : r input = .ok (v, mid)) : (r >>= f) input = f v mid := by
  rw [bind_run, h]
  rfl

theorem bind_of_error {cause : FormatFault} (h : r input = .error cause) :
    (r >>= f) input = .error cause := by
  rw [bind_run, h]
  rfl

theorem bind_eq_ok_iff : (r >>= f) input = .ok (w, rest) ↔
    ∃ v mid, r input = .ok (v, mid) ∧ f v mid = .ok (w, rest) := by
  constructor
  · intro h
    cases hr : r input with
    | error cause =>
      rw [bind_of_error hr] at h
      cases h
    | ok x =>
      rw [bind_of_ok hr] at h
      exact ⟨x.1, x.2, rfl, h⟩
  · rintro ⟨v, mid, hr, hf⟩
    rw [bind_of_ok hr, hf]

/-! ## Settled readers -/

/-- In front of this input a reader gives a value and leaves the rest if the condition holds, and
fails otherwise. -/
structure Settles (r : Reader α) (input : Bytes) (P : Prop) (v : α) (rest : Bytes) : Prop where
  ok : P → r input = .ok (v, rest)
  error : ¬P → ∃ cause, r input = .error cause

namespace Settles

theorem of_ok (h : r input = .ok (v, rest)) : Settles r input True v rest :=
  ⟨fun _ => h, fun hn => absurd trivial hn⟩

theorem of_error {cause : FormatFault} (h : r input = .error cause) (hn : ¬P) :
    Settles r input P v rest :=
  ⟨fun hp => absurd hp hn, fun _ => ⟨cause, h⟩⟩

theorem congr (h : Settles r input P v rest) (hiff : P ↔ Q) : Settles r input Q v rest :=
  ⟨fun hq => h.ok (hiff.2 hq), fun hq => h.error fun hp => hq (hiff.1 hp)⟩

theorem bind (hr : Settles r input P v mid) (hf : Settles (f v) mid Q w rest) :
    Settles (r >>= f) input (P ∧ Q) w rest := by
  constructor
  · rintro ⟨hp, hq⟩
    rw [bind_of_ok (hr.ok hp), hf.ok hq]
  · intro hn
    by_cases hp : P
    · obtain ⟨cause, hcause⟩ := hf.error fun hq => hn ⟨hp, hq⟩
      exact ⟨cause, by rw [bind_of_ok (hr.ok hp), hcause]⟩
    · obtain ⟨cause, hcause⟩ := hr.error hp
      exact ⟨cause, bind_of_error hcause⟩

/-- A step that always succeeds in front of one that is settled. -/
theorem after (hr : r input = .ok (v, mid)) (hf : Settles (f v) mid P w rest) :
    Settles (r >>= f) input P w rest :=
  ((of_ok hr).bind hf).congr (iff_of_eq (true_and P))

theorem followed (hr : Settles r input P v mid) (hf : f v mid = .ok (w, rest)) :
    Settles (r >>= f) input P w rest :=
  (hr.bind (of_ok hf)).congr (iff_of_eq (and_true P))

end Settles

/-! ## White space -/

def Blank (pad : Bytes) : Prop := ∀ b ∈ pad, isSpace b = true

theorem dropWhile_of_blank (h : Blank pad) (input : Bytes) :
    (pad ++ input).dropWhile isSpace = input.dropWhile isSpace :=
  List.dropWhile_append_of_pos h

theorem peek_of_blank (h : Blank pad) (input : Bytes) : peek (pad ++ input) = peek input := by
  simp only [peek, dropWhile_of_blank h]

theorem next_of_blank (h : Blank pad) (input : Bytes) : next (pad ++ input) = next input := by
  simp only [next, bind_run, peek_of_blank h]

theorem peek_cons {b : UInt8} (h : isSpace b = false) (input : Bytes) :
    peek (b :: input) = .ok (some b, b :: input) := by
  rw [peek, List.dropWhile_cons_of_neg (by simp [h])]
  rfl

theorem next_cons {b : UInt8} (h : isSpace b = false) (input : Bytes) :
    next (b :: input) = .ok (b, b :: input) := by
  rw [next, bind_of_ok (peek_cons h input)]
  rfl

/-- White space in front of a token is passed over. -/
theorem next_spaced {b : UInt8} (hpad : Blank pad) (h : isSpace b = false) (input : Bytes) :
    next (pad ++ b :: input) = .ok (b, b :: input) := by
  rw [next_of_blank hpad, next_cons h]

theorem drop_cons (b : UInt8) (input : Bytes) : drop (b :: input) = .ok ((), input) := rfl

theorem mark_spaced {b : UInt8} (hpad : Blank pad) (h : isSpace b = false) (input : Bytes) :
    mark b (pad ++ b :: input) = .ok ((), input) := by
  rw [mark, bind_of_ok (next_spaced hpad h input), if_pos rfl, drop_cons]

theorem blank_nil : Blank [] := fun _ h => absurd h List.not_mem_nil

/-! ## Readers in front of more -/

/-- What can follow a written value: nothing, a comma or a line break. -/
def Delimited : Bytes → Prop
  | [] => True
  | b :: _ => b = 0x2C ∨ b = 0x0A

/-- A reader that gives a value on some input gives the same value when more follows there. -/
def Extends (r : Reader α) : Prop := ∀ ⦃input v mid rest⦄, Delimited rest →
  r input = .ok (v, mid) → r (input ++ rest) = .ok (v, mid ++ rest)

theorem extends_pure (v : α) : Extends (pure v : Reader α) := by
  intro input w mid rest _ h
  cases h
  rfl

theorem extends_fail (cause : FormatFault) : Extends (fail cause : Reader α) := by
  intro input w mid rest _ h
  cases h

theorem Extends.bind (hr : Extends r) (hf : ∀ v, Extends (f v)) : Extends (r >>= f) := by
  intro input w after rest hrest h
  obtain ⟨v, mid, h₁, h₂⟩ := bind_eq_ok_iff.1 h
  exact bind_eq_ok_iff.2 ⟨v, mid ++ rest, hr hrest h₁, hf v hrest h₂⟩

theorem next_eq_ok_iff {b : UInt8} :
    next input = .ok (b, mid) ↔ input.dropWhile isSpace = mid ∧ mid.head? = some b := by
  have hpeek : peek input = .ok ((input.dropWhile isSpace).head?, input.dropWhile isSpace) := rfl
  rw [next, bind_of_ok hpeek]
  cases hhead : (input.dropWhile isSpace).head? with
  | none =>
    constructor
    · intro h
      cases h
    · rintro ⟨rfl, h⟩
      rw [hhead] at h
      cases h
  | some c =>
    constructor
    · intro h
      cases h
      exact ⟨rfl, hhead⟩
    · rintro ⟨rfl, h⟩
      rw [hhead] at h
      cases h
      rfl

theorem extends_next : Extends next := by
  intro input b mid rest _ h
  obtain ⟨hdrop, hhead⟩ := next_eq_ok_iff.1 h
  refine next_eq_ok_iff.2 ⟨?_, ?_⟩
  · have hne : (input.dropWhile isSpace).isEmpty = false := by
      rw [hdrop]
      cases mid with
      | nil => cases hhead
      | cons => rfl
    rw [List.dropWhile_append, hne, hdrop]
    rfl
  · rw [List.head?_append, hhead]
    rfl

/-! ## What readers guarantee -/

/-- Every value that a reader gives has a property. -/
def Ensures (r : Reader α) (P : α → Prop) : Prop :=
  ∀ ⦃input v rest⦄, r input = .ok (v, rest) → P v

theorem ensures_pure {P : α → Prop} {v : α} (h : P v) : Ensures (pure v : Reader α) P := by
  intro input w rest hw
  cases hw
  exact h

theorem ensures_fail {P : α → Prop} (cause : FormatFault) : Ensures (fail cause : Reader α) P := by
  intro input w rest hw
  cases hw

theorem Ensures.bind {P : α → Prop} {Q : β → Prop} (hr : Ensures r P)
    (hf : ∀ v, P v → Ensures (f v) Q) : Ensures (r >>= f) Q := by
  intro input w rest h
  obtain ⟨v, mid, h₁, h₂⟩ := bind_eq_ok_iff.1 h
  exact hf v (hr h₁) h₂

theorem Ensures.after {Q : β → Prop} (hf : ∀ v, Ensures (f v) Q) : Ensures (r >>= f) Q := by
  intro input w rest h
  obtain ⟨v, mid, -, h₂⟩ := bind_eq_ok_iff.1 h
  exact hf v h₂

end Sentential.Json.Reader
