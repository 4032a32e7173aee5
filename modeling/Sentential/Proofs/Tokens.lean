import Mathlib.Tactic.SplitIfs
import Sentential.Proofs.Numerals
import Sentential.Proofs.Written

/-!
# Written texts

What the readers of texts and names do in front of a quoted text. A text is read back whatever its
characters are: a character with an escape is read from the escape, and the bytes of any other one
stand for themselves.
-/
namespace Sentential.Json

open Text

/-! ## Bytes between quotes -/

theorem unquote_quote (rest : Bytes) : unquote (0x22 :: rest) = .ok ([], rest) := by
  rw [unquote, if_pos rfl]

theorem unquote_plain {b : UInt8} (hquote : b ≠ 0x22) (hslash : b ≠ 0x5C) (hcontrol : ¬b < 0x20)
    {rest more after : Bytes} (h : unquote rest = .ok (more, after)) :
    unquote (b :: rest) = .ok (b :: more, after) := by
  rw [unquote, if_neg hquote, if_neg hslash, if_neg hcontrol, h]

theorem unquote_escaped {bytes out rest more after : Bytes} (he : escaped bytes = .ok (out, rest))
    (h : unquote rest = .ok (more, after)) :
    unquote (0x5C :: bytes) = .ok (out ++ more, after) := by
  rw [unquote, if_neg (by decide), if_pos rfl]
  split
  · rename_i cause hcause
    rw [he] at hcause
    cases hcause
  · rename_i out' rest' hout
    rw [he] at hout
    cases hout
    rw [h]

/-- Bytes that are neither quotes nor backslashes nor controls stand for themselves. -/
theorem unquote_append {plain : Bytes} (hplain : ∀ b ∈ plain, b ≠ 0x22 ∧ b ≠ 0x5C ∧ ¬b < 0x20)
    {rest more after : Bytes} (h : unquote rest = .ok (more, after)) :
    unquote (plain ++ rest) = .ok (plain ++ more, after) := by
  induction plain with
  | nil => exact h
  | cons b plain ih =>
    obtain ⟨⟨hquote, hslash, hcontrol⟩, hrest⟩ := List.forall_mem_cons.1 hplain
    exact unquote_plain hquote hslash hcontrol (ih hrest)

theorem hexDigit?_digitOf : ∀ v < 16,
    hexDigit? ((Numeral.digitOf v).toNat.toUInt8) = some v ∧ (Numeral.digitOf v).toNat < 128 := by
  decide

/-- Four digits that stand for a control. -/
theorem escaped_control {c : Char} (hc : c.toNat < 32) (rest : Bytes) :
    escaped (0x75 :: 0x30 :: 0x30 :: (Numeral.digitOf (c.toNat / 16)).toNat.toUInt8 ::
      (Numeral.digitOf (c.toNat % 16)).toNat.toUInt8 :: rest) =
      .ok (String.utf8EncodeChar c, rest) := by
  have hunit : hexUnit? 0x30 0x30 (Numeral.digitOf (c.toNat / 16)).toNat.toUInt8
      (Numeral.digitOf (c.toNat % 16)).toNat.toUInt8 = some c.toNat := by
    rw [hexUnit?, (hexDigit?_digitOf (c.toNat / 16) (by omega)).1,
      (hexDigit?_digitOf (c.toNat % 16) (by omega)).1]
    change some (((0 * 16 + 0) * 16 + c.toNat / 16) * 16 + c.toNat % 16) = some c.toNat
    rw [Option.some_inj]
    omega
  have htrailing : isTrailing c.toNat = false := by
    rw [isTrailing]
    simp
    omega
  have hleading : isLeading c.toNat = false := by
    rw [isLeading]
    simp
    omega
  have hutf8 : utf8 c.toNat = String.utf8EncodeChar c := by
    rw [utf8, Char.ofNat_toNat]
    exact bytes_singleton c
  simp only [escaped, hunit, htrailing, hleading, hutf8]
  rfl

theorem bytes_digit {v : Nat} (hv : v < 16) :
    String.utf8EncodeChar (Numeral.digitOf v) = [(Numeral.digitOf v).toNat.toUInt8] :=
  utf8EncodeChar_of_lt (hexDigit?_digitOf v hv).2

theorem digits_of_lt {v : Nat} (hv : v < 16) : Numeral.digits 16 v = [Numeral.digitOf v] := by
  rw [Numeral.digits, if_pos (by omega)]

theorem bytes_control {c : Char} (hc : c.toNat < 32) :
    bytes (if c.toNat < 16 then "\\u000" ++ Numeral.hexadecimal c.toNat
      else "\\u00" ++ Numeral.hexadecimal c.toNat) =
      0x5C :: 0x75 :: 0x30 :: 0x30 :: [(Numeral.digitOf (c.toNat / 16)).toNat.toUInt8,
        (Numeral.digitOf (c.toNat % 16)).toNat.toUInt8] := by
  split
  · rename_i hsmall
    have hdiv : c.toNat / 16 = 0 := by omega
    have hmod : c.toNat % 16 = c.toNat := by omega
    rw [bytes_append, Numeral.hexadecimal, Numeral.write, digits_of_lt hsmall, bytes_ofList,
      bytes_ofList, List.flatMap_singleton, bytes_digit hsmall, hdiv, hmod]
    rfl
  · have hdiv : c.toNat / 16 < 16 := by omega
    have hmod : c.toNat % 16 < 16 := by omega
    have hdigits : Numeral.digits 16 c.toNat =
        [Numeral.digitOf (c.toNat / 16), Numeral.digitOf (c.toNat % 16)] := by
      rw [Numeral.digits, if_neg (by omega)]
      exact congrArg (· ++ [Numeral.digitOf (c.toNat % 16)]) (digits_of_lt hdiv)
    have hflat : [Numeral.digitOf (c.toNat / 16), Numeral.digitOf (c.toNat % 16)].flatMap
        String.utf8EncodeChar = [(Numeral.digitOf (c.toNat / 16)).toNat.toUInt8,
          (Numeral.digitOf (c.toNat % 16)).toNat.toUInt8] := by
      rw [List.flatMap_cons, List.flatMap_singleton, bytes_digit hdiv, bytes_digit hmod]
      rfl
    rw [bytes_append, Numeral.hexadecimal, Numeral.write, hdigits, bytes_ofList, bytes_ofList, hflat]
    rfl

theorem unquote_named {text : String} {e b : UInt8} (htext : bytes text = [0x5C, e])
    (he : e ≠ 0x75) (hb : simpleEscape? e = some b) {c : Char} (hc : String.utf8EncodeChar c = [b])
    {rest more after : Bytes} (h : unquote rest = .ok (more, after)) :
    unquote (bytes text ++ rest) = .ok (String.utf8EncodeChar c ++ more, after) := by
  have hescaped : escaped (e :: rest) = .ok ([b], rest) := by
    simp only [escaped, hb]
    exact if_pos he
  rw [htext, hc]
  exact unquote_escaped hescaped h

theorem plain_of_mem {c : Char} (hquote : c ≠ '"') (hslash : c ≠ '\\') (hcontrol : ¬c.toNat < 32)
    {b : UInt8} (hb : b ∈ String.utf8EncodeChar c) : b ≠ 0x22 ∧ b ≠ 0x5C ∧ ¬b < 0x20 := by
  have toNat_ne : ∀ {d : Char}, c ≠ d → c.toNat ≠ d.toNat := by
    intro d hne heq
    exact hne (Char.ext (UInt32.toNat_inj.1 heq))
  have hquote' : c.toNat ≠ 0x22 := toNat_ne hquote
  have hslash' : c.toNat ≠ 0x5C := toNat_ne hslash
  have hbounds : b.toNat ≠ 0x22 ∧ b.toNat ≠ 0x5C ∧ ¬b.toNat < 0x20 := by
    by_cases hc : c.toNat < 128
    · rw [utf8EncodeChar_of_lt hc] at hb
      obtain rfl := List.mem_singleton.1 hb
      rw [Nat.toUInt8, UInt8.toNat_ofNat', Nat.mod_eq_of_lt (by omega)]
      exact ⟨hquote', hslash', hcontrol⟩
    · have hle := le_of_mem_utf8EncodeChar (Nat.le_of_not_lt hc) hb
      omega
  refine ⟨?_, ?_, hbounds.2.2⟩
  · rintro rfl
    exact hbounds.1 rfl
  · rintro rfl
    exact hbounds.2.1 rfl

/-- A character is read back from its escape, or from its bytes if it has none. -/
theorem unquote_escape (c : Char) {rest more after : Bytes} (h : unquote rest = .ok (more, after)) :
    unquote (bytes (escape c) ++ rest) = .ok (String.utf8EncodeChar c ++ more, after) := by
  have ascii : ∀ {n : Nat}, n < 128 → c.toNat = n → String.utf8EncodeChar c = [n.toUInt8] := by
    intro n hn hc
    rw [utf8EncodeChar_of_lt (by omega), hc]
  rw [escape]
  split_ifs with hquote hslash hline hreturn htab hback hfeed hsmall hcontrol
  · exact unquote_named (bytes_ofList ['\\', '"']) (by decide) rfl (by rw [hquote]; rfl) h
  · exact unquote_named (bytes_ofList ['\\', '\\']) (by decide) rfl (by rw [hslash]; rfl) h
  · exact unquote_named (bytes_ofList ['\\', 'n']) (by decide) rfl (by rw [hline]; rfl) h
  · exact unquote_named (bytes_ofList ['\\', 'r']) (by decide) rfl (by rw [hreturn]; rfl) h
  · exact unquote_named (bytes_ofList ['\\', 't']) (by decide) rfl (by rw [htab]; rfl) h
  · exact unquote_named (bytes_ofList ['\\', 'b']) (by decide) rfl (ascii (by decide) hback) h
  · exact unquote_named (bytes_ofList ['\\', 'f']) (by decide) rfl (ascii (by decide) hfeed) h
  · have hbytes := bytes_control (c := c) (by omega)
    rw [if_pos hsmall] at hbytes
    rw [hbytes]
    exact unquote_escaped (escaped_control (by omega) rest) h
  · have hbytes := bytes_control hcontrol
    rw [if_neg hsmall] at hbytes
    rw [hbytes]
    exact unquote_escaped (escaped_control hcontrol rest) h
  · rw [bytes_singleton]
    exact unquote_append (fun b hb => plain_of_mem hquote hslash hcontrol hb) h

/-- A text is read back from its quoted form. -/
theorem quoted_quote (text : String) (rest : Bytes) :
    Reader.quoted (bytes (quote text) ++ rest) = .ok (text, rest) := by
  have hquote : bytes "\"" = [0x22] := bytes_ofList ['"']
  have hchars : ∀ chars : List Char, unquote (bytes (String.join (chars.map escape)) ++ 0x22 :: rest) =
      .ok (chars.flatMap String.utf8EncodeChar, rest) := by
    intro chars
    induction chars with
    | nil => rw [List.map_nil, String.join_nil, bytes_empty, List.nil_append, unquote_quote]; rfl
    | cons c chars ih =>
      rw [List.map_cons, String.join_cons, bytes_append, List.append_assoc, unquote_escape c ih]
      rfl
  have hunquote : unquote (bytes (quote text) ++ rest).tail = .ok (bytes text, rest) := by
    rw [quote, bytes_append, bytes_append, hquote, List.append_assoc, List.append_assoc,
      bytes_eq_flatMap text]
    exact hchars text.toList
  rw [Reader.quoted, hunquote]
  simp only [fromUTF8?_bytes]

theorem exists_quote (text : String) : ∃ more, bytes (quote text) = 0x22 :: more := by
  have hquote : bytes "\"" = [0x22] := bytes_ofList ['"']
  rw [quote, bytes_append, bytes_append, hquote]
  exact ⟨_, rfl⟩

namespace Reader

theorem takes_string (text : String) : Takes string (.string text) True text := by
  intro pad level rest hpad hrest
  obtain ⟨more, hmore⟩ := exists_quote text
  have hquoted := quoted_quote text rest
  rw [written_string]
  rw [hmore, List.cons_append] at hquoted ⊢
  refine .of_ok ?_
  rw [string, bind_of_ok (next_spaced hpad (by decide) _), if_pos rfl, hquoted]

/-- The name of a member in front of its colon. -/
theorem name_quote (text : String) (rest : Bytes) : name (bytes (quote text) ++ rest) = .ok (text, rest) := by
  obtain ⟨more, hmore⟩ := exists_quote text
  have hquoted := quoted_quote text rest
  rw [hmore, List.cons_append] at hquoted ⊢
  rw [name, bind_of_ok (next_cons (by decide) _), if_pos rfl, hquoted]

theorem name_of_blank {pad : Bytes} (hpad : Blank pad) (input : Bytes) :
    name (pad ++ input) = name input := by
  rw [name, bind_run, next_of_blank hpad]
  rfl

theorem takes_character (c : Char) : Takes character (.string (String.singleton c)) True c := by
  intro pad level rest hpad hrest
  refine (takes_string (String.singleton c) hpad hrest).followed ?_
  rw [String.toList_singleton]
  rfl

end Reader

end Sentential.Json
