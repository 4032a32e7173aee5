import Sentential.Policy.Dialogue
import Sentential.Proofs.Encoding

/-!
# Lines of an input

An input is cut where its bytes are line feeds. The bytes of a character are that of a line feed
only when the character is one, so a text is cut where it has line feeds, and every line is the text
between two of them.
-/
namespace Sentential

namespace Text

/-- Cuts characters after every line feed; `held` is the line so far, its last character first. -/
def linesFrom (held : List Char) : List Char → List String
  | [] => if held.isEmpty then [] else [String.ofList held.reverse]
  | c :: rest =>
    if c = '\n' then String.ofList held.reverse :: linesFrom [] rest else linesFrom (c :: held) rest

/-- The lines of a text without the line feeds at their ends. What comes behind the last line feed is
a line unless it is empty. -/
def lines (text : String) : List String := linesFrom [] text.toList

end Text

namespace Input

open Text

theorem ne_lineFeed_of_mem {c : Char} (h : c ≠ '\n') {b : UInt8} (hb : b ∈ String.utf8EncodeChar c) :
    b ≠ 0x0A := by
  intro heq
  have hne : c.toNat ≠ 10 := by
    intro hc
    exact h (Char.ext (UInt32.toNat_inj.1 hc))
  have hnat : b.toNat = 10 := by
    rw [heq]
    rfl
  by_cases hc : c.toNat < 128
  · rw [utf8EncodeChar_of_lt hc] at hb
    obtain rfl := List.mem_singleton.1 hb
    rw [Nat.toUInt8, UInt8.toNat_ofNat'] at hnat
    omega
  · have hle := le_of_mem_utf8EncodeChar (Nat.le_of_not_lt hc) hb
    omega

theorem lineOfBytes_bytes (line : String) : lineOfBytes (bytes line) = some line :=
  fromUTF8?_bytes line

theorem cut_append {bytes : List UInt8} (h : ∀ b ∈ bytes, b ≠ 0x0A) (held rest : List UInt8) :
    cut held (bytes ++ rest) = cut (bytes.reverse ++ held) rest := by
  induction bytes generalizing held with
  | nil => rfl
  | cons b bytes ih =>
    obtain ⟨hb, hbytes⟩ := List.forall_mem_cons.1 h
    rw [List.cons_append, cut, if_neg hb, ih hbytes, List.reverse_cons, List.append_assoc]
    rfl

/-- Bytes are cut where the characters are that they belong to. -/
theorem cut_eq_linesFrom (held chars : List Char) :
    cut (held.reverse.flatMap String.utf8EncodeChar).reverse
        (chars.flatMap String.utf8EncodeChar) = (linesFrom held chars).map some := by
  have hline (chars : List Char) :
      lineOfBytes (chars.flatMap String.utf8EncodeChar) = some (String.ofList chars) := by
    rw [← bytes_ofList, lineOfBytes_bytes]
  induction chars generalizing held with
  | nil =>
    rw [List.flatMap_nil, cut, linesFrom, List.reverse_reverse, hline]
    cases held with
    | nil => rfl
    | cons c held =>
      rw [if_neg (by simp [String.utf8EncodeChar_ne_nil]), if_neg (by simp)]
      rfl
  | cons c chars ih =>
    rw [List.flatMap_cons, linesFrom]
    by_cases hc : c = '\n'
    · have hfeed : String.utf8EncodeChar c = [0x0A] := by
        rw [hc]
        rfl
      rw [hfeed, List.singleton_append, cut, if_pos rfl, if_pos hc, List.reverse_reverse, hline,
        List.map_cons]
      exact congrArg _ (ih [])
    · have hheld : (String.utf8EncodeChar c).reverse ++
          (held.reverse.flatMap String.utf8EncodeChar).reverse =
            ((c :: held).reverse.flatMap String.utf8EncodeChar).reverse := by
        simp [List.flatMap_append]
      rw [cut_append fun b hb => ne_lineFeed_of_mem hc hb, hheld, if_neg hc]
      exact ih (c :: held)

/-- A text is read line by line. -/
theorem ofString_eq_lines (text : String) : ofString text = (lines text).map some := by
  change cut [] (bytes text) = _
  rw [bytes_eq_flatMap]
  exact cut_eq_linesFrom [] text.toList

theorem ofString_line {line : String} (h : ∀ c ∈ line.toList, c ≠ '\n') (rest : String) :
    ofString (line ++ "\n" ++ rest) = some line :: ofString rest := by
  have hbytes : ∀ b ∈ bytes line, b ≠ 0x0A := by
    intro b hb
    rw [bytes_eq_flatMap] at hb
    obtain ⟨c, hc, hb⟩ := List.mem_flatMap.1 hb
    exact ne_lineFeed_of_mem (h c hc) hb
  have hfeed : bytes "\n" = [0x0A] := by
    rw [bytes_eq_flatMap]
    rfl
  change cut [] (bytes (line ++ "\n" ++ rest)) = _
  rw [bytes_append, bytes_append, List.append_assoc, cut_append hbytes, hfeed,
    List.singleton_append, cut, if_pos rfl, List.append_nil, List.reverse_reverse,
    lineOfBytes_bytes]
  rfl

theorem ofString_join {lines : List String} (h : ∀ line ∈ lines, ∀ c ∈ line.toList, c ≠ '\n') :
    ofString (String.join (lines.map fun line => line ++ "\n")) = lines.map some := by
  induction lines with
  | nil => simp [ofString, ofBytes, cut]
  | cons line lines ih =>
    obtain ⟨hline, hlines⟩ := List.forall_mem_cons.1 h
    rw [List.map_cons, String.join_cons, ofString_line hline, ih hlines]
    rfl

end Input

end Sentential
