import Mathlib.Tactic.SplitIfs
import Sentential.Proofs.Finite
import Sentential.Proofs.Numerals
import Sentential.Proofs.Written

/-!
# Written numbers

What the readers of counts and floating point numbers do in front of what is written for them. A
number ends where no digit, point or exponent follows, so a number that is read from its text alone
is also read where a comma or a line break follows. All floating point numbers that are read are
finite, and what is written for the others is refused.
-/
namespace Sentential.Json

open Text

namespace Reader

/-! ## Numbers in front of more -/

variable {α : Type} {input mid rest : Bytes}

theorem delimited_head {b : UInt8} {more : Bytes} (h : Delimited (b :: more)) :
    digit? b = none ∧ b ≠ 0x2E ∧ b ≠ 0x65 ∧ b ≠ 0x45 := by
  rcases h with rfl | rfl <;> decide

theorem takeDigits_append {ds : List Nat} (hrest : Delimited rest)
    (h : takeDigits input = (ds, mid)) : takeDigits (input ++ rest) = (ds, mid ++ rest) := by
  induction input generalizing ds with
  | nil =>
    cases h
    cases rest with
    | nil => rfl
    | cons b more => simp [takeDigits, (delimited_head hrest).1]
  | cons b input ih =>
    rw [takeDigits] at h
    rw [List.cons_append, takeDigits]
    cases hb : digit? b with
    | none =>
      simp only [hb] at h ⊢
      cases h
      rfl
    | some d =>
      simp only [hb] at h ⊢
      cases h
      rw [ih rfl]

theorem someDigits_eq_ok_iff {atEnd : FormatFault} {ds : List Nat} :
    Numeral.someDigits atEnd input = .ok (ds, mid) ↔ takeDigits input = (ds, mid) ∧ ds ≠ [] := by
  rcases hd : takeDigits input with ⟨_ | ⟨d, digits⟩, after⟩
  · constructor
    · intro h
      simp only [Numeral.someDigits, hd] at h
      split at h <;> simp_all
    · rintro ⟨h, hne⟩
      cases h
      exact absurd rfl hne
  · have hsome : Numeral.someDigits atEnd input = .ok (d :: digits, after) := by
      unfold Numeral.someDigits
      rw [hd]
    rw [hsome]
    constructor
    · intro h
      cases h
      exact ⟨rfl, List.cons_ne_nil _ _⟩
    · rintro ⟨h, -⟩
      cases h
      rfl

theorem extends_someDigits (atEnd : FormatFault) : Extends (Numeral.someDigits atEnd) := by
  intro input ds mid rest hrest h
  obtain ⟨htake, hne⟩ := someDigits_eq_ok_iff.1 h
  exact someDigits_eq_ok_iff.2 ⟨takeDigits_append hrest htake, hne⟩

theorem extends_readWhole (atEnd : FormatFault) : Extends (Numeral.readWhole atEnd) := by
  refine (extends_someDigits atEnd).bind fun ds => ?_
  split
  · exact extends_fail _
  · exact extends_pure _

/-- A part that is there when it starts with a certain byte. -/
theorem extends_map {β : Type} {r : Reader α} (hr : Extends r) (f : α → β) : Extends (f <$> r) :=
  hr.bind fun v => extends_pure (f v)

theorem extends_readFraction (atEnd : FormatFault) : Extends (Numeral.readFraction atEnd) := by
  intro input fraction mid rest hrest h
  have absent : ∀ {bytes : Bytes}, bytes.head? ≠ some 0x2E →
      Numeral.readFraction atEnd bytes = .ok (none, bytes) := by
    intro bytes hne
    unfold Numeral.readFraction
    split
    · exact absurd rfl hne
    · rfl
  by_cases hb : input.head? = some 0x2E
  · obtain ⟨more, rfl⟩ : ∃ more, input = 0x2E :: more := by
      cases input with
      | nil => cases hb
      | cons b more =>
        cases hb
        exact ⟨more, rfl⟩
    exact extends_map (extends_someDigits atEnd) some hrest h
  · rw [absent hb] at h
    cases h
    refine absent ?_
    cases input with
    | cons b more => exact hb
    | nil =>
      cases rest with
      | nil => exact hb
      | cons b more => exact fun heq => (delimited_head hrest).2.1 (Option.some.inj heq)

/-- The digits of an exponent with or without a sign. -/
def exponentDigits (atEnd : FormatFault) : Reader (Option (Bool × List Nat)) := fun bytes =>
  match bytes with
  | 0x2B :: rest => ((fun ds => some (false, ds)) <$> Numeral.someDigits atEnd) rest
  | 0x2D :: rest => ((fun ds => some (true, ds)) <$> Numeral.someDigits atEnd) rest
  | _ => ((fun ds => some (false, ds)) <$> Numeral.someDigits atEnd) bytes

theorem exponentDigits_cons {atEnd : FormatFault} {b : UInt8} (hplus : b ≠ 0x2B) (hminus : b ≠ 0x2D)
    (bytes : Bytes) : exponentDigits atEnd (b :: bytes) =
      ((fun ds => some (false, ds)) <$> Numeral.someDigits atEnd) (b :: bytes) := by
  unfold exponentDigits
  split
  · rename_i heq
    cases heq
    exact absurd rfl hplus
  · rename_i heq
    cases heq
    exact absurd rfl hminus
  · rfl

theorem extends_exponentDigits (atEnd : FormatFault) : Extends (exponentDigits atEnd) := by
  have digits : ∀ negative : Bool,
      Extends ((fun ds => some (negative, ds)) <$> Numeral.someDigits atEnd) :=
    fun negative => extends_map (extends_someDigits atEnd) _
  intro input exponent mid rest hrest h
  cases input with
  | nil => cases h
  | cons b input =>
    by_cases hplus : b = 0x2B
    · subst hplus
      exact digits false hrest h
    · by_cases hminus : b = 0x2D
      · subst hminus
        exact digits true hrest h
      · rw [exponentDigits_cons hplus hminus] at h
        rw [List.cons_append, exponentDigits_cons hplus hminus, ← List.cons_append]
        exact digits false hrest h

theorem extends_readExponent (atEnd : FormatFault) : Extends (Numeral.readExponent atEnd) := by
  intro input exponent mid rest hrest h
  cases input with
  | nil =>
    cases h
    cases rest with
    | nil => rfl
    | cons b more =>
      obtain ⟨-, -, hlower, hupper⟩ := delimited_head hrest
      exact if_neg (not_or.2 ⟨hlower, hupper⟩)
  | cons b input =>
    unfold Numeral.readExponent at h ⊢
    by_cases hb : b = 0x65 ∨ b = 0x45
    · simp only [if_pos hb, List.cons_append] at h ⊢
      exact extends_exponentDigits atEnd hrest h
    · simp only [if_neg hb, List.cons_append] at h ⊢
      cases h
      rfl

theorem extends_read (atEnd : FormatFault) : Extends (Numeral.read atEnd) :=
  (extends_readWhole atEnd).bind fun _ => (extends_readFraction atEnd).bind fun _ =>
    (extends_readExponent atEnd).bind fun _ => extends_pure _

/-- A reader that looks at the first byte of a token. -/
theorem extends_next_bind {f : UInt8 → Reader α} (hf : ∀ b {input v mid rest}, Delimited rest →
    f b (b :: input) = .ok (v, mid) → f b (b :: (input ++ rest)) = .ok (v, mid ++ rest)) :
    Extends (next >>= f) := by
  intro input v mid rest hrest h
  obtain ⟨b, after, hnext, h⟩ := bind_eq_ok_iff.1 h
  obtain ⟨more, rfl⟩ : ∃ more, after = b :: more := by
    obtain ⟨-, hhead⟩ := next_eq_ok_iff.1 hnext
    cases after with
    | nil => cases hhead
    | cons c more =>
      cases hhead
      exact ⟨more, rfl⟩
  rw [bind_of_ok (extends_next hrest hnext)]
  exact hf b hrest h

/-- What a number stands for, once its sign and its digits are known. -/
def ofNumeral (negative : Bool) (n : Numeral) : Reader Number :=
  match n.natural?, n.magnitude? with
  | some n, _ => pure (if negative then .real (-Float.ofNat n) else .natural n)
  | none, some x => pure (.real (if negative then -x else x))
  | none, none => fail .malformed

theorem number_eq : number = next >>= fun b =>
    if b = 0x2D then drop >>= fun _ => Numeral.read .truncated >>= ofNumeral true
    else Numeral.read .truncated >>= ofNumeral false := by
  unfold number
  congr 1
  funext b
  by_cases hb : b = 0x2D
  · simp only [hb, if_true]
    rfl
  · simp only [hb, if_false]
    rfl

theorem extends_ofNumeral (negative : Bool) (n : Numeral) : Extends (ofNumeral negative n) := by
  unfold ofNumeral
  split
  · exact extends_pure _
  · exact extends_pure _
  · exact extends_fail _

theorem extends_number : Extends number := by
  have value : ∀ negative, Extends (Numeral.read .truncated >>= ofNumeral negative) :=
    fun negative => (extends_read _).bind (extends_ofNumeral negative)
  rw [number_eq]
  refine extends_next_bind fun b input v mid rest hrest h => ?_
  split at h
  · rename_i hb
    rw [if_pos hb]
    exact value true hrest h
  · rename_i hb
    rw [if_neg hb]
    exact value false hrest h

theorem ensures_wrongShape {P : α → Prop} : Ensures (wrongShape : Reader α) P := by
  refine .after fun b => ?_
  split_ifs
  · exact .after fun _ => .after fun _ => ensures_fail _
  · exact .after fun _ => .after fun _ => ensures_fail _
  · exact .after fun _ => .after fun _ => ensures_fail _
  · exact .after fun _ => ensures_fail _
  · exact .after fun _ => ensures_fail _
  · exact ensures_fail _
  · exact ensures_fail _

theorem extends_numeric : Extends numeric := by
  refine extends_next_bind fun b input v mid rest hrest h => ?_
  by_cases hb : b = 0x2D ∨ (digit? b).isSome
  · rw [if_pos hb] at h ⊢
    exact extends_number hrest h
  · rw [if_neg hb] at h
    exact (ensures_wrongShape (P := fun _ => False) h).elim

theorem extends_count : Extends count := by
  refine extends_numeric.bind fun v => ?_
  split
  · split
    · exact extends_pure _
    · exact extends_fail _
  · exact extends_fail _

theorem extends_float : Extends float := by
  refine extends_numeric.bind fun v => ?_
  split
  · exact extends_pure _
  · exact extends_pure _

theorem numeric_of_blank {pad : Bytes} (hpad : Blank pad) (f : Number → Reader α) (input : Bytes) :
    (numeric >>= f) (pad ++ input) = (numeric >>= f) input := by
  have hnumeric : numeric (pad ++ input) = numeric input := by
    rw [numeric, bind_run, next_of_blank hpad]
    rfl
  rw [bind_run, hnumeric]
  rfl

/-! ## Counts -/

theorem digit?_digitOf : ∀ v < 10, digit? (Numeral.digitOf v).toNat.toUInt8 = some v ∧
    (Numeral.digitOf v).toNat < 128 := by decide

theorem takeDigits_digits {xs : Bytes} {ds : List Nat} (h : takeDigits xs = (ds, [])) (ys : Bytes) :
    takeDigits (xs ++ ys) = (ds ++ (takeDigits ys).1, (takeDigits ys).2) := by
  induction xs generalizing ds with
  | nil =>
    cases h
    rfl
  | cons b xs ih =>
    rw [takeDigits] at h
    rw [List.cons_append, takeDigits]
    cases hb : digit? b with
    | none =>
      simp only [hb] at h
      cases h
    | some d =>
      rcases hxs : takeDigits xs with ⟨es, mid⟩
      simp only [hb, hxs] at h ⊢
      cases h
      rw [ih hxs]
      rfl

theorem gather_append {n m : Nat} {ds : List Nat} (h : Numeral.gather n ds = (m, 0))
    (es : List Nat) : Numeral.gather n (ds ++ es) = Numeral.gather m es := by
  induction ds generalizing n with
  | nil =>
    cases h
    rfl
  | cons d ds ih =>
    rw [Numeral.gather] at h
    rw [List.cons_append, Numeral.gather]
    split at h
    · rename_i hlt
      rw [if_pos hlt, ih h]
    · cases h

/-- The digits of a numeral: no zero is in front of other digits, and they make up the number. -/
theorem takeDigits_decimal {n : Nat} (hn : n < UInt64.size) : ∃ d ds,
    takeDigits (bytes (Numeral.decimal n)) = (d :: ds, []) ∧
      Numeral.gather 0 (d :: ds) = (n, 0) ∧ (d = 0 → ds = []) ∧ (d = 0 → n = 0) := by
  have single : ∀ v < 10, takeDigits (String.utf8EncodeChar (Numeral.digitOf v)) = ([v], []) := by
    intro v hv
    rw [utf8EncodeChar_of_lt (digit?_digitOf v hv).2]
    simp only [takeDigits, (digit?_digitOf v hv).1]
  have step : ∀ m v, 10 * m + v < UInt64.size → Numeral.gather m [v] = (10 * m + v, 0) := by
    intro m v hlt
    rw [Numeral.gather, if_pos hlt]
    rfl
  simp only [Numeral.decimal, Numeral.write, bytes_ofList]
  fun_induction Numeral.digits 10 n with
  | case1 n hsmall =>
    refine ⟨n, [], ?_, ?_, fun _ => rfl, fun h => h⟩
    · rw [List.flatMap_singleton, single n (by omega)]
    · rw [step 0 n (by omega), Nat.mul_zero, Nat.zero_add]
  | case2 n hlarge ih =>
    have hmax : max 10 2 = 10 := rfl
    rw [hmax] at hlarge ih ⊢
    obtain ⟨d, ds, htake, hgather, -, hzero⟩ := ih (by omega)
    refine ⟨d, ds ++ [n % 10], ?_, ?_, fun h => ?_, fun h => ?_⟩
    · rw [List.flatMap_append, takeDigits_digits htake, List.flatMap_singleton,
        single (n % 10) (by omega)]
      rfl
    · rw [← List.cons_append, gather_append hgather, step _ _ (by omega)]
      congr 1
      omega
    · have := hzero h
      omega
    · have := hzero h
      omega

theorem digit?_bounds {b : UInt8} {d : Nat} (h : digit? b = some d) :
    isSpace b = false ∧ b ≠ 0x2D ∧ b ≠ 0x6E := by
  have hb : 48 ≤ b.toNat ∧ b.toNat ≤ 57 := by
    rw [digit?] at h
    split at h
    · assumption
    · cases h
  have ne : ∀ c : UInt8, c.toNat < 48 ∨ 57 < c.toNat → b ≠ c := by
    rintro c hc rfl
    omega
  refine ⟨?_, ne 0x2D (by decide), ne 0x6E (by decide)⟩
  simp only [isSpace, Bool.or_eq_false_iff, beq_eq_false_iff_ne]
  exact ⟨⟨⟨ne 0x20 (by decide), ne 0x0A (by decide)⟩, ne 0x09 (by decide)⟩, ne 0x0D (by decide)⟩

theorem exists_decimal {n : Nat} (hn : n < UInt64.size) : ∃ b d more,
    bytes (Numeral.decimal n) = b :: more ∧ digit? b = some d := by
  obtain ⟨d, ds, htake, -⟩ := takeDigits_decimal hn
  cases hbytes : bytes (Numeral.decimal n) with
  | nil =>
    rw [hbytes] at htake
    cases htake
  | cons b more =>
    rw [hbytes, takeDigits] at htake
    cases hb : digit? b with
    | none =>
      rw [hb] at htake
      cases htake
    | some e => exact ⟨b, e, more, rfl, hb⟩

theorem number_decimal {n : Nat} (hn : n < UInt64.size) :
    number (bytes (Numeral.decimal n)) = .ok (.natural n, []) := by
  obtain ⟨d, ds, htake, hgather, hfirst, -⟩ := takeDigits_decimal hn
  have hdigits : Numeral.someDigits .truncated (bytes (Numeral.decimal n)) = .ok (d :: ds, []) :=
    someDigits_eq_ok_iff.2 ⟨htake, List.cons_ne_nil _ _⟩
  have hwhole : Numeral.readWhole .truncated (bytes (Numeral.decimal n)) = .ok (d :: ds, []) := by
    rw [Numeral.readWhole, bind_of_ok hdigits]
    cases d with
    | zero =>
      rw [hfirst rfl]
      rfl
    | succ d => rfl
  have hread : Numeral.read .truncated (bytes (Numeral.decimal n)) =
      .ok (⟨d :: ds, none, none⟩, []) := by
    rw [Numeral.read, bind_of_ok hwhole]
    rfl
  have hvalue : (⟨d :: ds, none, none⟩ : Numeral).natural? = some n := by
    simp only [Numeral.natural?, hgather]
    rfl
  obtain ⟨b, e, more, hbytes, hb⟩ := exists_decimal hn
  obtain ⟨hspace, hminus, -⟩ := digit?_bounds hb
  rw [hbytes] at hread ⊢
  rw [number_eq, bind_of_ok (next_cons hspace more), if_neg hminus, bind_of_ok hread, ofNumeral, hvalue]
  rfl

theorem count_decimal (n : UInt32) : count (bytes (Numeral.decimal n.toNat)) = .ok (n, []) := by
  have hn : n.toNat < UInt32.size := n.toNat_lt
  have hsize : n.toNat < UInt64.size := Nat.lt_trans hn (by decide)
  have hnumber := number_decimal hsize
  obtain ⟨b, e, more, hbytes, hb⟩ := exists_decimal hsize
  rw [hbytes] at hnumber ⊢
  have hnumeric : numeric (b :: more) = .ok (.natural n.toNat, []) := by
    rw [numeric, bind_of_ok (next_cons (digit?_bounds hb).1 more),
      if_pos (.inr (by rw [hb]; rfl)), hnumber]
  rw [count, bind_of_ok hnumeric]
  simp only [if_pos hn, UInt32.ofNat_toNat]
  rfl

theorem takes_count (n : UInt32) : Takes count (ofNat n.toNat) True n := by
  intro pad level rest hpad hrest
  refine .of_ok ?_
  rw [ofNat, written_number, count, numeric_of_blank hpad]
  exact extends_count hrest (count_decimal n)

/-- A count that is there where null could stand for none. -/
theorem takes_someCount (n : UInt32) : Takes (orNull count) (ofNat n.toNat) True (some n) := by
  intro pad level rest hpad hrest
  obtain ⟨b, e, more, hbytes, hb⟩ :=
    exists_decimal (Nat.lt_trans n.toNat_lt (by decide) : n.toNat < UInt64.size)
  obtain ⟨hspace, -, hnull⟩ := digit?_bounds hb
  have hcount := extends_count hrest (count_decimal n)
  have hne : some b ≠ some 0x6E := fun heq => hnull (Option.some.inj heq)
  refine .of_ok ?_
  rw [ofNat, written_number]
  rw [hbytes, List.cons_append] at hcount ⊢
  have hpeek : peek (pad ++ b :: (more ++ rest)) = .ok (some b, b :: (more ++ rest)) := by
    rw [peek_of_blank hpad, peek_cons hspace]
  rw [orNull, bind_of_ok hpeek, if_neg hne, map_eq_pure_bind, bind_of_ok hcount]
  rfl

/-! ## Floating point numbers -/

/-- The text of a number is read as that number. The digits that are read are rounded, and scaled by
a power of ten that is rounded too, so that not every number has this property. -/
def ReadsBack (x : Float) : Prop :=
  float (bytes (Decimal.Layout.saved.text x)) = .ok (x, [])

theorem ReadsBack.of_chars {x : Float} (chars : List Char)
    (htext : Decimal.Layout.saved.text x = String.ofList chars)
    (hread : float (chars.flatMap String.utf8EncodeChar) = .ok (x, [])) : ReadsBack x := by
  rw [ReadsBack, htext, bytes_ofList, hread]

/-- A finite number is taken if its text is read back; what stands for another one is refused. -/
theorem takes_float {x : Float} (h : x.isFinite = true → ReadsBack x) :
    Takes float (ofFloat x) (x.isFinite = true) x := by
  intro pad level rest hpad hrest
  rw [ofFloat]
  by_cases hx : x.isFinite = true
  · rw [if_pos hx, written_number]
    refine (Settles.of_ok ?_).congr (iff_of_true trivial hx)
    rw [float, numeric_of_blank hpad]
    exact extends_float hrest (h hx)
  · have hnull : float (pad ++ ([0x6E, 0x75, 0x6C, 0x6C] ++ rest)) = .error .mismatched := by
      rw [float, numeric_of_blank hpad]
      rfl
    rw [if_neg hx, written_null]
    exact .of_error hnull hx

theorem ensures_number : Ensures number fun v => match v with
    | .natural n => n < UInt64.size
    | .real x => x.isFinite = true := by
  rw [number_eq]
  have value : ∀ negative, Ensures (Numeral.read .truncated >>= ofNumeral negative) fun v => match v with
      | .natural n => n < UInt64.size
      | .real x => x.isFinite = true := by
    intro negative
    refine .after fun n => ?_
    unfold ofNumeral
    split
    · rename_i k m hnatural
      have hk := Finite.natural_lt hnatural
      cases negative
      · exact ensures_pure hk
      · exact ensures_pure (Finite.isFinite_neg (Finite.isFinite_ofNat hk))
    · rename_i x hnatural hmagnitude
      have hx := Finite.isFinite_magnitude hmagnitude
      cases negative
      · exact ensures_pure hx
      · exact ensures_pure (Finite.isFinite_neg hx)
    · exact ensures_fail _
  refine .after fun b => ?_
  split
  · exact .after fun _ => value true
  · exact value false

theorem ensures_float : Ensures float fun x => x.isFinite = true := by
  have hnumeric : Ensures numeric fun v => match v with
      | .natural n => n < UInt64.size
      | .real x => x.isFinite = true := by
    refine .after fun b => ?_
    split
    · exact ensures_number
    · exact ensures_wrongShape
  refine hnumeric.bind fun v hv => ?_
  cases v with
  | natural n => exact ensures_pure (Finite.isFinite_ofNat hv)
  | real x => exact ensures_pure hv

end Reader

end Sentential.Json
