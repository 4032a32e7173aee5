import Mathlib.Tactic.SplitIfs
import Sentential.Json.Value
import Sentential.Proofs.Numerals

/-!
# Open brackets

How many brackets a text opens at once, seen from the text alone: brackets between quotes do not
count, and behind a backslash a quote does not end a quotation. In the text of a value it is the
number of brackets around the innermost part.
-/
namespace Sentential.Json

open Text

/-- Where a scan of a text stands: how many brackets are open, how many have been at most, and
whether it is between quotes and behind a backslash. -/
structure Scan where
  opened : Nat
  most : Nat
  quoted : Bool
  escaped : Bool

namespace Scan

def step (s : Scan) (c : Char) : Scan :=
  if s.quoted then
    if s.escaped then { s with escaped := false }
    else if c = '\\' then { s with escaped := true }
    else if c = '"' then { s with quoted := false }
    else s
  else if c = '"' then { s with quoted := true }
  else if c = '[' ∨ c = '\x7b' then
    { s with opened := s.opened + 1, most := max s.most (s.opened + 1) }
  else if c = ']' ∨ c = '\x7d' then { s with opened := s.opened - 1 }
  else s

/-- Goes on through a text. -/
def across (s : Scan) (text : String) : Scan := text.toList.foldl step s

end Scan

/-- The brackets that a text opens at once. -/
def deepest (text : String) : Nat := (Scan.across ⟨0, 0, false, false⟩ text).most

mutual

/-- The brackets around the innermost part of a value. -/
def height : Json → Nat
  | null | number _ | string _ => 0
  | array items => heightItems items + 1
  | object members => heightMembers members + 1

def heightItems : List Json → Nat
  | [] => 0
  | v :: vs => max (height v) (heightItems vs)

def heightMembers : List (String × Json) → Nat
  | [] => 0
  | (_, v) :: ms => max (height v) (heightMembers ms)

end

/-! ## Texts without brackets -/

/-- Whether a character is none of those that a scan looks for. -/
def isPlain (c : Char) : Bool := c ∉ ['"', '\\', '[', ']', '\x7b', '\x7d']

theorem Scan.step_of_isPlain {c : Char} (h : isPlain c = true) {s : Scan} (hs : s.escaped = false) :
    s.step c = s := by
  simp only [isPlain, decide_eq_true_eq, List.mem_cons, not_or] at h
  obtain ⟨hquote, hslash, hopen, hclose, hopen', hclose', -⟩ := h
  simp [Scan.step, hs, hquote, hslash, hopen, hclose, hopen', hclose']

/-- A text that a scan passes over. -/
def PlainText (text : String) : Prop := ∀ c ∈ text.toList, isPlain c = true

theorem PlainText.across {text : String} (h : PlainText text) (s : Scan) (hs : s.escaped = false) :
    s.across text = s := by
  have hall : ∀ chars : List Char, (∀ c ∈ chars, isPlain c = true) → chars.foldl Scan.step s = s := by
    intro chars hchars
    induction chars with
    | nil => rfl
    | cons c chars ih =>
      obtain ⟨hc, hchars⟩ := List.forall_mem_cons.1 hchars
      rw [List.foldl_cons, Scan.step_of_isPlain hc hs, ih hchars]
  exact hall text.toList h

theorem PlainText.append {s t : String} (hs : PlainText s) (ht : PlainText t) :
    PlainText (s ++ t) := by
  intro c hc
  rw [String.toList_append] at hc
  rcases List.mem_append.1 hc with hc | hc
  · exact hs c hc
  · exact ht c hc

theorem plainText_ofList {chars : List Char} (h : ∀ c ∈ chars, isPlain c = true) :
    PlainText (String.ofList chars) := by
  intro c hc
  rw [String.toList_ofList] at hc
  exact h c hc

theorem isPlain_of_mem_digits {radix n : Nat} (h₂ : 2 ≤ radix) (h₃₆ : radix ≤ 36) {c : Char}
    (hc : c ∈ Numeral.digits radix n) : isPlain c = true := by
  have hall : ∀ v < 36, isPlain (Numeral.digitOf v) = true := by decide
  obtain ⟨v, hv, rfl⟩ := Numeral.mem_digits h₂ hc
  exact hall v (by omega)

theorem plainText_decimal (n : Nat) : PlainText (Numeral.decimal n) :=
  plainText_ofList fun _ hc => isPlain_of_mem_digits (by decide) (by decide) hc

theorem plainText_zeros (n : Nat) : PlainText (Decimal.zeros n) := by
  refine plainText_ofList fun c hc => ?_
  rw [(List.mem_replicate.1 hc).2]
  rfl

theorem plainText_literal {text : String} (chars : List Char) (htext : text = String.ofList chars)
    (h : chars.all isPlain = true) : PlainText text :=
  htext ▸ plainText_ofList (List.all_eq_true.1 h)

theorem plainText_positional {whole : String} (hwhole : PlainText whole) (d : Decimal.Digits) :
    PlainText (Decimal.positional whole d) := by
  have hunits := plainText_decimal d.units
  unfold Decimal.positional
  simp only
  split_ifs
  · exact (hunits.append (plainText_zeros _)).append hwhole
  · refine (PlainText.append (plainText_ofList fun c hc => hunits c (List.mem_of_mem_take hc))
      (plainText_literal ['.'] rfl rfl)).append (plainText_ofList fun c hc => ?_)
    exact hunits c (List.mem_of_mem_drop hc)
  · exact ((plainText_literal ['0', '.'] rfl rfl).append (plainText_zeros _)).append hunits

theorem plainText_scientific (plus : Bool) (d : Decimal.Digits) (e : Int) :
    PlainText (Decimal.scientific plus d e) := by
  have hunits := plainText_decimal d.units
  have hempty : PlainText "" := plainText_literal [] rfl rfl
  have hfraction : PlainText (if ((Numeral.decimal d.units).toList.drop 1).isEmpty then ""
      else "." ++ String.ofList ((Numeral.decimal d.units).toList.drop 1)) := by
    split
    · exact hempty
    · refine (plainText_literal ['.'] rfl rfl).append (plainText_ofList fun c hc => ?_)
      exact hunits c (List.mem_of_mem_drop hc)
  have hsign : PlainText (if e < 0 then "-" else if plus then "+" else "") := by
    split_ifs
    · exact plainText_literal ['-'] rfl rfl
    · exact plainText_literal ['+'] rfl rfl
    · exact hempty
  have hfirst : PlainText (String.ofList ((Numeral.decimal d.units).toList.take 1)) :=
    plainText_ofList fun c hc => hunits c (List.mem_of_mem_take hc)
  exact (((hfirst.append hfraction).append (plainText_literal ['e'] rfl rfl)).append
    hsign).append (plainText_decimal _)

theorem plainText_number (l : Decimal.Layout) (x : Float) : PlainText (l.text x) := by
  have hempty : PlainText "" := plainText_literal [] rfl rfl
  have hsign : PlainText (if x.toBits.toNat < 1 <<< 63 then "" else "-") := by
    split
    · exact hempty
    · exact plainText_literal ['-'] rfl rfl
  have hwhole : PlainText (if l.point then ".0" else "") := by
    split
    · exact plainText_literal ['.', '0'] rfl rfl
    · exact hempty
  have hwrite : ∀ d, PlainText (l.write d) := by
    intro d
    unfold Decimal.Layout.write
    simp only
    split
    · exact plainText_scientific _ _ _
    · exact plainText_positional hwhole _
  unfold Decimal.Layout.text
  simp only
  split
  · exact plainText_literal ['N', 'a', 'N'] rfl rfl
  · split
    · exact hsign.append (plainText_literal ['i', 'n', 'f'] rfl rfl)
    · exact hsign.append (hwrite _)

/-! ## Quoted texts -/

namespace Scan

theorem across_append (s : Scan) (t u : String) : s.across (t ++ u) = (s.across t).across u := by
  rw [across, String.toList_append, List.foldl_append]
  rfl

theorem across_ofList (s : Scan) (chars : List Char) :
    s.across (String.ofList chars) = chars.foldl step s := by
  rw [across, String.toList_ofList]

variable (opened most : Nat)

/-- A character between quotes, as it is written, leaves a scan between the quotes. -/
theorem across_escape (c : Char) :
    across ⟨opened, most, true, false⟩ (escape c) = ⟨opened, most, true, false⟩ := by
  have hdigits : PlainText (Numeral.hexadecimal c.toNat) :=
    plainText_ofList fun _ hc => isPlain_of_mem_digits (by decide) (by decide) hc
  rw [escape]
  split_ifs with hquote hslash
  · exact across_ofList _ ['\\', '"']
  · exact across_ofList _ ['\\', '\\']
  · exact across_ofList _ ['\\', 'n']
  · exact across_ofList _ ['\\', 'r']
  · exact across_ofList _ ['\\', 't']
  · exact across_ofList _ ['\\', 'b']
  · exact across_ofList _ ['\\', 'f']
  · rw [across_append]
    exact (congrArg (across · _) (across_ofList _ ['\\', 'u', '0', '0', '0'])).trans (hdigits.across _ rfl)
  · rw [across_append]
    exact (congrArg (across · _) (across_ofList _ ['\\', 'u', '0', '0'])).trans (hdigits.across _ rfl)
  · rw [across, String.toList_singleton]
    simp [step, hquote, hslash]

theorem across_quote (text : String) :
    across ⟨opened, most, false, false⟩ (quote text) = ⟨opened, most, false, false⟩ := by
  have hchars : ∀ chars : List Char, across ⟨opened, most, true, false⟩
      (String.join (chars.map escape)) = ⟨opened, most, true, false⟩ := by
    intro chars
    induction chars with
    | nil => exact across_ofList _ []
    | cons c chars ih => rw [List.map_cons, String.join_cons, across_append, across_escape, ih]
  have hopen : across ⟨opened, most, false, false⟩ "\"" = ⟨opened, most, true, false⟩ :=
    across_ofList _ ['"']
  have hclose : across ⟨opened, most, true, false⟩ "\"" = ⟨opened, most, false, false⟩ :=
    across_ofList _ ['"']
  rw [quote, across_append, across_append, hopen, hchars, hclose]

end Scan

/-! ## Values -/

mutual

/-- The numbers of a value are passed over by a scan. -/
def PlainNumbers : Json → Prop
  | null | string _ => True
  | number text => PlainText text
  | array items => PlainItems items
  | object members => PlainMembers members

def PlainItems : List Json → Prop
  | [] => True
  | v :: vs => PlainNumbers v ∧ PlainItems vs

def PlainMembers : List (String × Json) → Prop
  | [] => True
  | (_, v) :: ms => PlainNumbers v ∧ PlainMembers ms

end

theorem plainItems_iff {vs : List Json} : PlainItems vs ↔ ∀ v ∈ vs, PlainNumbers v := by
  induction vs with
  | nil => simp [PlainItems]
  | cons v vs ih => rw [PlainItems, ih, List.forall_mem_cons]

theorem plainMembers_iff {ms : List (String × Json)} :
    PlainMembers ms ↔ ∀ m ∈ ms, PlainNumbers m.2 := by
  induction ms with
  | nil => simp [PlainMembers]
  | cons m ms ih => rw [PlainMembers, ih, List.forall_mem_cons]

theorem plainNumbers_ofNat (n : Nat) : PlainNumbers (ofNat n) := plainText_decimal n

theorem plainNumbers_ofFloat (x : Float) : PlainNumbers (ofFloat x) := by
  rw [ofFloat]
  split
  · exact plainText_number _ x
  · trivial

namespace Scan

theorem across_newline (s : Scan) (hs : s.escaped = false) (level : Nat) :
    s.across (newline level) = s := by
  have hspaces : PlainText (String.ofList (List.replicate (2 * level) ' ')) := by
    refine plainText_ofList fun c hc => ?_
    rw [(List.mem_replicate.1 hc).2]
    rfl
  exact ((plainText_literal ['\n'] rfl rfl).append hspaces).across s hs

theorem across_comma (s : Scan) (hs : s.escaped = false) : s.across "," = s :=
  (plainText_literal [','] rfl rfl).across s hs

theorem across_colon (s : Scan) (hs : s.escaped = false) : s.across ": " = s :=
  (plainText_literal [':', ' '] rfl rfl).across s hs

theorem across_open {text : String} (htext : text = "[" ∨ text = "\x7b") (opened most : Nat) :
    across ⟨opened, most, false, false⟩ text = ⟨opened + 1, max most (opened + 1), false, false⟩ := by
  rcases htext with rfl | rfl
  · exact across_ofList _ ['[']
  · exact across_ofList _ ['\x7b']

theorem across_close {text : String} (htext : text = "]" ∨ text = "\x7d") (opened most : Nat) :
    across ⟨opened + 1, most, false, false⟩ text = ⟨opened, most, false, false⟩ := by
  rcases htext with rfl | rfl
  · exact across_ofList _ [']']
  · exact across_ofList _ ['\x7d']

mutual

/-- A scan over the text of a value opens as many brackets as its height. -/
theorem foldl_indented (level : Nat) (v : Json) (h : PlainNumbers v) (opened most : Nat)
    (hle : opened ≤ most) (rest : List String) :
    (v.indented level rest).foldl across ⟨opened, most, false, false⟩ =
      rest.foldl across ⟨opened, max most (opened + v.height), false, false⟩ :=
  match v, h with
  | null, _ => by
    have hnull : PlainText "null" := plainText_literal ['n', 'u', 'l', 'l'] rfl rfl
    rw [indented, List.foldl_cons, hnull.across _ rfl, height, Nat.add_zero, Nat.max_eq_left hle]
  | number text, h => by
    have htext : PlainText text := h
    rw [indented, List.foldl_cons, htext.across _ rfl, height, Nat.add_zero, Nat.max_eq_left hle]
  | string text, _ => by
    rw [indented, List.foldl_cons, across_quote, height, Nat.add_zero, Nat.max_eq_left hle]
  | array [], _ => by
    have hboth : across ⟨opened, most, false, false⟩ "[]" =
        ⟨opened, max most (opened + 1), false, false⟩ := across_ofList _ ['[', ']']
    rw [indented, List.foldl_cons, hboth]
    rfl
  | object [], _ => by
    have hboth : across ⟨opened, most, false, false⟩ "\x7b\x7d" =
        ⟨opened, max most (opened + 1), false, false⟩ := across_ofList _ ['\x7b', '\x7d']
    rw [indented, List.foldl_cons, hboth]
    rfl
  | array (v :: vs), h => by
    obtain ⟨hv, hvs⟩ := h
    have hmax : max (max (max most (opened + 1)) (opened + 1 + v.height))
        (opened + 1 + heightItems vs) = max most (opened + (max v.height (heightItems vs) + 1)) := by
      omega
    rw [indented, List.foldl_cons, across_open (.inl rfl), List.foldl_cons, across_newline _ rfl,
      foldl_indented (level + 1) v hv _ _ (by omega), foldl_items (level + 1) vs hvs _ _ (by omega),
      List.foldl_cons, across_newline _ rfl, List.foldl_cons, across_close (.inl rfl), height, heightItems, hmax]
  | object ((name, v) :: ms), h => by
    obtain ⟨hv, hms⟩ := h
    have hmax : max (max (max most (opened + 1)) (opened + 1 + v.height))
        (opened + 1 + heightMembers ms) =
          max most (opened + (max v.height (heightMembers ms) + 1)) := by
      omega
    rw [indented, List.foldl_cons, across_open (.inr rfl), List.foldl_cons, across_newline _ rfl,
      List.foldl_cons, across_quote, List.foldl_cons, across_colon _ rfl,
      foldl_indented (level + 1) v hv _ _ (by omega),
      foldl_members (level + 1) ms hms _ _ (by omega), List.foldl_cons, across_newline _ rfl,
      List.foldl_cons, across_close (.inr rfl), height, heightMembers, hmax]

theorem foldl_items (level : Nat) (vs : List Json) (h : PlainItems vs) (opened most : Nat)
    (hle : opened ≤ most) (rest : List String) :
    (indentedItems level vs rest).foldl across ⟨opened, most, false, false⟩ =
      rest.foldl across ⟨opened, max most (opened + heightItems vs), false, false⟩ :=
  match vs, h with
  | [], _ => by rw [indentedItems, heightItems, Nat.add_zero, Nat.max_eq_left hle]
  | v :: vs, h => by
    have hmax : max (max most (opened + v.height)) (opened + heightItems vs) =
        max most (opened + max v.height (heightItems vs)) := by omega
    rw [indentedItems, List.foldl_cons, across_comma _ rfl, List.foldl_cons, across_newline _ rfl,
      foldl_indented level v h.1 _ _ hle, foldl_items level vs h.2 _ _ (by omega), heightItems, hmax]

theorem foldl_members (level : Nat) (ms : List (String × Json)) (h : PlainMembers ms)
    (opened most : Nat) (hle : opened ≤ most) (rest : List String) :
    (indentedMembers level ms rest).foldl across ⟨opened, most, false, false⟩ =
      rest.foldl across ⟨opened, max most (opened + heightMembers ms), false, false⟩ :=
  match ms, h with
  | [], _ => by rw [indentedMembers, heightMembers, Nat.add_zero, Nat.max_eq_left hle]
  | (name, v) :: ms, h => by
    have hmax : max (max most (opened + v.height)) (opened + heightMembers ms) =
        max most (opened + max v.height (heightMembers ms)) := by omega
    rw [indentedMembers, List.foldl_cons, across_comma _ rfl, List.foldl_cons, across_newline _ rfl,
      List.foldl_cons, across_quote, List.foldl_cons, across_colon _ rfl,
      foldl_indented level v h.1 _ _ hle, foldl_members level ms h.2 _ _ (by omega), heightMembers,
      hmax]

end

theorem across_join (s : Scan) (pieces : List String) :
    s.across (String.join pieces) = pieces.foldl across s := by
  induction pieces generalizing s with
  | nil => exact across_ofList s []
  | cons text pieces ih => rw [String.join_cons, across_append, ih, List.foldl_cons]

end Scan

/-- The text of a value opens as many brackets at once as there are around its innermost part. -/
theorem deepest_pretty {v : Json} (h : PlainNumbers v) : deepest v.pretty = v.height := by
  rw [deepest, pretty, Scan.across_join, Scan.foldl_indented 0 v h 0 0 (Nat.le_refl 0)]
  simp

/-! ## Heights -/

theorem height_ofFloat (x : Float) : (ofFloat x).height = 0 := by
  rw [ofFloat]
  split <;> rfl

theorem heightItems_lt {d : Nat} {vs : List Json} :
    heightItems vs < d ↔ 0 < d ∧ ∀ v ∈ vs, v.height < d := by
  induction vs with
  | nil => simp [heightItems]
  | cons v vs ih =>
    rw [heightItems, Nat.max_lt, ih, List.forall_mem_cons]
    exact and_left_comm

theorem heightMembers_lt {d : Nat} {ms : List (String × Json)} :
    heightMembers ms < d ↔ 0 < d ∧ ∀ m ∈ ms, m.2.height < d := by
  induction ms with
  | nil => simp [heightMembers]
  | cons m ms ih =>
    rw [heightMembers, Nat.max_lt, ih, List.forall_mem_cons]
    exact and_left_comm

end Sentential.Json
