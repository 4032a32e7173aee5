import Sentential.Json.Value
import Sentential.Proofs.Reading
import Sentential.Proofs.Encoding

/-!
# Written values

The bytes of an indented value, in the shape in which readers take them: an opening bracket, the
parts on lines of their own, each but the first behind a comma, and the closing bracket.
-/
namespace Sentential.Json

open Text

def indent (level : Nat) : Bytes := 0x0A :: List.replicate (2 * level) 0x20

theorem bytes_newline (level : Nat) : bytes (newline level) = indent level := by
  have hspace : String.utf8EncodeChar ' ' = [0x20] := rfl
  have hbreak : bytes "\n" = [0x0A] := bytes_ofList ['\n']
  rw [newline, bytes_append, hbreak, bytes_ofList, List.flatMap_replicate, hspace]
  simp [indent]

theorem blank_indent (level : Nat) : Reader.Blank (indent level) := by
  intro b hb
  rcases List.mem_cons.1 hb with rfl | hb
  · rfl
  · rw [(List.mem_replicate.1 hb).2]
    rfl

/-- The bytes of an indented value at some level. -/
def written (level : Nat) (v : Json) : Bytes := (v.indented level []).flatMap bytes

mutual

theorem indented_eq_append (level : Nat) (v : Json) (rest : List String) :
    v.indented level rest = v.indented level [] ++ rest :=
  match v with
  | null | number _ | string _ | array [] | object [] => by simp only [indented]; rfl
  | array (v :: vs) => by
    simp only [indented]
    rw [indentedItems_eq_append, indentedItems_eq_append (level + 1) vs [newline level, "]"],
      indented_eq_append (level + 1) v, indented_eq_append (level + 1) v (_ ++ _)]
    simp
  | object ((name, v) :: ms) => by
    simp only [indented]
    rw [indentedMembers_eq_append, indentedMembers_eq_append (level + 1) ms [newline level, "\x7d"],
      indented_eq_append (level + 1) v, indented_eq_append (level + 1) v (_ ++ _)]
    simp

theorem indentedItems_eq_append (level : Nat) (vs : List Json) (rest : List String) :
    indentedItems level vs rest = indentedItems level vs [] ++ rest :=
  match vs with
  | [] => rfl
  | v :: vs => by
    simp only [indentedItems]
    rw [indentedItems_eq_append level vs rest, indented_eq_append level v,
      indented_eq_append level v (indentedItems level vs [])]
    simp

theorem indentedMembers_eq_append (level : Nat) (ms : List (String × Json)) (rest : List String) :
    indentedMembers level ms rest = indentedMembers level ms [] ++ rest :=
  match ms with
  | [] => rfl
  | (name, v) :: ms => by
    simp only [indentedMembers]
    rw [indentedMembers_eq_append level ms rest, indented_eq_append level v,
      indented_eq_append level v (indentedMembers level ms [])]
    simp

end

/-- Parts behind the first one, each on a line of its own behind a comma, up to what closes them. -/
def chained (level : Nat) (closing : Bytes) : List Bytes → Bytes
  | [] => closing
  | x :: xs => 0x2C :: (indent level ++ (x ++ chained level closing xs))

theorem chained_append (level : Nat) (closing rest : Bytes) (xs : List Bytes) :
    chained level closing xs ++ rest = chained level (closing ++ rest) xs := by
  induction xs with
  | nil => rfl
  | cons x xs ih => simp only [chained, List.cons_append, List.append_assoc, ih]

def writtenMember (level : Nat) (m : String × Json) : Bytes :=
  bytes (quote m.1) ++ 0x3A :: 0x20 :: written level m.2

theorem flatMap_indentedItems (level : Nat) (vs : List Json) (closing : Bytes) :
    (indentedItems level vs []).flatMap bytes ++ closing =
      chained level closing (vs.map (written level)) := by
  have hcomma : bytes "," = [0x2C] := bytes_ofList [',']
  induction vs with
  | nil => rfl
  | cons v vs ih =>
    rw [indentedItems, indented_eq_append]
    simp only [List.flatMap_cons, List.flatMap_append, List.append_assoc, ih, bytes_newline, hcomma]
    rfl

theorem flatMap_indentedMembers (level : Nat) (ms : List (String × Json)) (closing : Bytes) :
    (indentedMembers level ms []).flatMap bytes ++ closing =
      chained level closing (ms.map (writtenMember level)) := by
  have hcomma : bytes "," = [0x2C] := bytes_ofList [',']
  have hcolon : bytes ": " = [0x3A, 0x20] := bytes_ofList [':', ' ']
  induction ms with
  | nil => rfl
  | cons m ms ih =>
    obtain ⟨name, v⟩ := m
    rw [indentedMembers, indented_eq_append]
    simp only [List.flatMap_cons, List.flatMap_append, List.append_assoc, ih, bytes_newline, hcomma,
      hcolon, List.map_cons, chained, writtenMember]
    rfl

/-- What stands between two brackets: nothing, or parts on lines of their own. -/
def enclosedParts (level : Nat) (close : UInt8) (rest : Bytes) : List Bytes → Bytes
  | [] => close :: rest
  | x :: xs => indent (level + 1) ++ (x ++ chained (level + 1) (indent level ++ close :: rest) xs)

theorem written_null (level : Nat) : null.written level = [0x6E, 0x75, 0x6C, 0x6C] := by
  simp only [written, indented, List.flatMap_singleton]
  exact bytes_ofList ['n', 'u', 'l', 'l']

theorem written_number (level : Nat) (text : String) : (number text).written level = bytes text := by
  simp only [written, indented, List.flatMap_singleton]

theorem written_string (level : Nat) (text : String) :
    (string text).written level = bytes (quote text) := by
  simp only [written, indented, List.flatMap_singleton]

theorem written_array (level : Nat) (vs : List Json) (rest : Bytes) :
    (array vs).written level ++ rest =
      0x5B :: enclosedParts level 0x5D rest (vs.map (written (level + 1))) := by
  cases vs with
  | nil =>
    simp only [written, indented, List.flatMap_singleton]
    exact congrArg (· ++ rest) (bytes_ofList ['[', ']'])
  | cons v vs =>
    have hopen : bytes "[" = [0x5B] := bytes_ofList ['[']
    have hclose : bytes "]" = [0x5D] := bytes_ofList [']']
    rw [written, indented, indented_eq_append, indentedItems_eq_append]
    simp only [List.flatMap_cons, List.flatMap_append, List.append_assoc, bytes_newline, hopen,
      hclose, List.flatMap_nil, List.append_nil, flatMap_indentedItems, chained_append]
    rfl

theorem written_object (level : Nat) (ms : List (String × Json)) (rest : Bytes) :
    (object ms).written level ++ rest =
      0x7B :: enclosedParts level 0x7D rest (ms.map (writtenMember (level + 1))) := by
  cases ms with
  | nil =>
    simp only [written, indented, List.flatMap_singleton]
    exact congrArg (· ++ rest) (bytes_ofList ['\x7b', '\x7d'])
  | cons m ms =>
    obtain ⟨name, v⟩ := m
    have hopen : bytes "\x7b" = [0x7B] := bytes_ofList ['\x7b']
    have hclose : bytes "\x7d" = [0x7D] := bytes_ofList ['\x7d']
    have hcolon : bytes ": " = [0x3A, 0x20] := bytes_ofList [':', ' ']
    rw [written, indented, indented_eq_append, indentedMembers_eq_append]
    simp only [List.flatMap_cons, List.flatMap_append, List.append_assoc, bytes_newline, hopen,
      hclose, hcolon, List.flatMap_nil, List.append_nil, flatMap_indentedMembers, chained_append,
      List.map_cons, enclosedParts, writtenMember]
    rfl

theorem bytes_pretty (v : Json) : bytes v.pretty = v.written 0 := bytes_join _

theorem delimited_chained (outer level : Nat) (rest : Bytes) (xs : List Bytes) :
    Reader.Delimited (chained level (indent outer ++ rest) xs) := by
  cases xs with
  | nil => exact .inr rfl
  | cons x xs => exact .inl rfl

namespace Reader

variable {α : Type}

/-- In front of a written value, with white space before it or not, a reader gives what the value
stands for if the condition holds, and fails otherwise. -/
def Takes (r : Reader α) (j : Json) (P : Prop) (v : α) : Prop := ∀ ⦃pad level rest⦄,
  Blank pad → Delimited rest → Settles r (pad ++ (j.written level ++ rest)) P v rest

namespace Takes

variable {β : Type} {r : Reader α} {f : α → Reader β} {j : Json} {P Q : Prop} {v : α} {w : β}

theorem congr (h : Takes r j P v) (hiff : P ↔ Q) : Takes r j Q v :=
  fun _ _ _ hpad hrest => (h hpad hrest).congr hiff

theorem followed (h : Takes r j P v) (hf : ∀ input, f v input = .ok (w, input)) :
    Takes (r >>= f) j P w :=
  fun _ _ rest hpad hrest => (h hpad hrest).followed (hf rest)

theorem map (h : Takes r j P v) (f : α → β) : Takes (f <$> r) j P (f v) := by
  rw [map_eq_pure_bind]
  exact h.followed fun _ => rfl

end Takes

end Reader

end Sentential.Json
