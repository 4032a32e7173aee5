import Sentential.Text.Blank
import Sentential.Text.Numeral

/-!
# Numerals that are read back

Reading the numeral of a number gives that number in every radix that has digits, as long as it is
in range. Digits are neither signs nor blanks, so nothing is taken from a numeral when it is read.
-/
namespace Sentential.Text

namespace Numeral

theorem toNat_digitOf {v : Nat} (h : v < 36) :
    (digitOf v).toNat = if v < 10 then 48 + v else 87 + v := by
  have hvalid : ∀ n, n < 128 → (Char.ofNat n).toNat = n := by decide
  unfold digitOf
  split
  · exact hvalid (48 + v) (by omega)
  · exact hvalid (87 + v) (by omega)

theorem valueOf?_digitOf {radix v : Nat} (hv : v < radix) (hr : radix ≤ 36) :
    valueOf? radix (digitOf v) = some v := by
  simp only [valueOf?, toNat_digitOf (Nat.lt_of_lt_of_le hv hr)]
  by_cases h : v < 10
  · have h₁ : 48 ≤ 48 + v ∧ 48 + v ≤ 57 := by omega
    simp [h, h₁, hv]
  · have h₁ : ¬(48 ≤ 87 + v ∧ 87 + v ≤ 57) := by omega
    have h₂ : 97 ≤ 87 + v ∧ 87 + v ≤ 122 := by omega
    simp [h, h₁, h₂, hv]

theorem isBlank_digitOf {v : Nat} (h : v < 36) : isBlank (digitOf v) = false := by
  have hn := toNat_digitOf h
  simp only [isBlank, hn]
  split <;> simp <;> omega

theorem digitOf_ne_plus {v : Nat} (h : v < 36) : digitOf v ≠ '+' := by
  intro heq
  have hn := toNat_digitOf h
  rw [heq] at hn
  change 43 = _ at hn
  split at hn <;> omega

theorem digits_ne_nil (radix n : Nat) : digits radix n ≠ [] := by
  rw [digits]
  split <;> simp

theorem mem_digits {radix n : Nat} (h : 2 ≤ radix) {c : Char} (hc : c ∈ digits radix n) :
    ∃ v, v < radix ∧ c = digitOf v := by
  have hmax : max radix 2 = radix := by omega
  fun_induction digits radix n with
  | case1 n hn =>
    rw [hmax] at hn
    exact ⟨n, hn, List.mem_singleton.1 hc⟩
  | case2 n hn ih =>
    rcases List.mem_append.1 hc with hc | hc
    · exact ih hc
    · rw [hmax] at hc
      exact ⟨n % radix, Nat.mod_lt n (by omega), List.mem_singleton.1 hc⟩

theorem readDigits_append (radix bound n : Nat) (xs ys : List Char) :
    readDigits radix bound n (xs ++ ys) =
      readDigits radix bound n xs >>= fun m => readDigits radix bound m ys := by
  induction xs generalizing n with
  | nil => rfl
  | cons c xs ih =>
    simp only [List.cons_append, readDigits]
    split
    · rfl
    · split
      · exact ih _
      · rfl

theorem readDigits_digits {radix : Nat} (h2 : 2 ≤ radix) (h36 : radix ≤ 36) {bound n : Nat}
    (h : n < bound) : readDigits radix bound 0 (digits radix n) = .ok n := by
  have hmax : max radix 2 = radix := by omega
  fun_induction digits radix n with
  | case1 n hn =>
    rw [hmax] at hn
    simp [readDigits, valueOf?_digitOf hn h36, h]
  | case2 n hn ih =>
    rw [hmax] at ih ⊢
    have hmod : n % radix < radix := Nat.mod_lt n (by omega)
    have hdiv : radix * (n / radix) + n % radix = n := Nat.div_add_mod n radix
    have hle : n / radix ≤ n := Nat.div_le_self n radix
    rw [readDigits_append, ih (by omega)]
    simp [bind, Except.bind, readDigits, valueOf?_digitOf hmod h36, hdiv, h]

/-- A number is read back from its numeral. -/
theorem read_write {radix : Nat} (h2 : 2 ≤ radix) (h36 : radix ≤ 36) {bound n : Nat}
    (h : n < bound) : read radix bound (write radix n) = .ok n := by
  have hread := readDigits_digits h2 h36 h
  have hne := digits_ne_nil radix n
  have hplus : ∀ c ∈ digits radix n, c ≠ '+' := by
    intro c hc
    obtain ⟨v, hv, rfl⟩ := mem_digits h2 hc
    exact digitOf_ne_plus (Nat.lt_of_lt_of_le hv h36)
  rw [read, write, String.toList_ofList]
  split
  · rename_i heq
    exact absurd heq hne
  · rename_i heq
    exact absurd rfl (hplus '+' (by simp [heq]))
  · rename_i rest _ heq
    exact absurd rfl (hplus '+' (by simp [heq]))
  · exact hread

end Numeral

theorem dropWhile_isBlank {chars : List Char} (h : ∀ c ∈ chars, isBlank c = false) :
    chars.dropWhile isBlank = chars := by
  cases chars with
  | nil => rfl
  | cons c rest => rw [List.dropWhile_cons_of_neg (by simp [h c List.mem_cons_self])]

theorem trim_eq_self {text : String} (h : ∀ c ∈ text.toList, isBlank c = false) :
    trim text = text := by
  have hreverse : ∀ c ∈ text.toList.reverse, isBlank c = false := by
    intro c hc
    exact h c (List.mem_reverse.1 hc)
  rw [trim, trimBlanks, dropWhile_isBlank h, dropWhile_isBlank hreverse, List.reverse_reverse,
    String.ofList_toList]

end Sentential.Text
