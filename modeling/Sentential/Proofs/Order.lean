import Mathlib.Data.List.Basic
import Sentential.Proofs.Encoding

/-!
# The first of what stands in order

A list may hold what stands at certain places, in the order of the places. A search through such a
list finds the first match, and that can be said without the list: something stands at some place
and matches, and nothing that stands at an earlier place does. Names are compared by their bytes,
and characters have the order of their bytes in UTF-8, so texts in ascending order have their bytes
in ascending order.
-/
namespace Sentential

namespace Text

/-- Numbers are compared by their digits in base 64, the last three of them one by one. -/
theorem digits_lt {m n : Nat} (h : m < n) :
    m / 262144 < n / 262144 ∨ m / 262144 = n / 262144 ∧
      (m / 4096 % 64 < n / 4096 % 64 ∨ m / 4096 % 64 = n / 4096 % 64 ∧
        (m / 64 % 64 < n / 64 % 64 ∨ m / 64 % 64 = n / 64 % 64 ∧ m % 64 < n % 64)) := by
  have last : m / 64 < n / 64 ∨ m / 64 = n / 64 ∧ m % 64 < n % 64 := by omega
  rcases last with h | h
  · have later : m / 4096 < n / 4096 ∨ m / 4096 = n / 4096 ∧ m / 64 % 64 < n / 64 % 64 := by omega
    rcases later with h | h <;> omega
  · omega

/-- The bytes of two characters differ somewhere before either of them ends. -/
theorem utf8EncodeChar_append_lt {c d : Char} (h : c < d) (s t : List UInt8) :
    String.utf8EncodeChar c ++ s < String.utf8EncodeChar d ++ t := by
  have hcd : c.val.toNat < d.val.toNat := h
  have hd : d.val.toNat < 2097152 := by
    have := d.valid
    simp only [UInt32.isValidChar, Nat.isValidChar] at this
    omega
  unfold String.utf8EncodeChar
  generalize c.val.toNat = m at *
  generalize d.val.toNat = n at *
  clear h
  have digits := digits_lt hcd
  dsimp only
  -- longer encodings begin with greater bytes, those of one length count up in base 64
  repeat' split
  all_goals
    simp only [List.cons_append, List.nil_append, List.cons_lt_cons_iff, UInt8.lt_iff_toNat_lt,
      ← UInt8.toNat_inj, UInt8.toNat_ofNat']
    try simp (disch := omega) only [Nat.mod_eq_of_lt]
    by_cases further : s < t
    all_goals
      try simp only [further, and_true, and_false, or_false]
      omega

theorem flatMap_utf8EncodeChar_lt {s t : List Char} (h : s < t) :
    s.flatMap String.utf8EncodeChar < t.flatMap String.utf8EncodeChar := by
  induction h with
  | @nil d t =>
    have hne : String.utf8EncodeChar d ≠ [] := String.utf8EncodeChar_ne_nil
    obtain ⟨b, bs, hbytes⟩ := List.exists_cons_of_ne_nil hne
    rw [List.flatMap_cons, hbytes]
    exact List.Lex.nil
  | cons _ ih => exact List.append_left_lt ih
  | rel hlt => exact utf8EncodeChar_append_lt hlt _ _

/-- Ascending texts have ascending bytes. -/
theorem bytes_lt {s t : String} (h : s < t) : bytes s < bytes t := by
  rw [bytes_eq_flatMap, bytes_eq_flatMap]
  exact flatMap_utf8EncodeChar_lt (String.lt_iff.1 h)

end Text

/-- The given elements are those that stand somewhere, in the order of their places. -/
def InOrder {ι α : Type} (earlier : ι → ι → Prop) (stands : ι → α → Prop) (elements : List α) :
    Prop :=
  ∃ placed : List (ι × α), placed.map Prod.snd = elements ∧
    placed.Pairwise (fun a b => earlier a.1 b.1) ∧ ∀ i x, (i, x) ∈ placed ↔ stands i x

namespace InOrder

variable {ι κ α β : Type} {earlier : ι → ι → Prop} {p q : ι → α → Prop} {xs ys : List α}

theorem nil (h : ∀ i x, ¬ p i x) : InOrder earlier p [] :=
  ⟨[], rfl, .nil, fun i x => by simp [h i x]⟩

theorem cons {i : ι} {x : α} (h : InOrder earlier p xs) (first : ∀ j y, p j y → earlier i j) :
    InOrder earlier (fun j y => j = i ∧ y = x ∨ p j y) (x :: xs) := by
  obtain ⟨placed, rfl, sorted, mem⟩ := h
  refine ⟨(i, x) :: placed, rfl, List.pairwise_cons.2 ⟨fun a ha => ?_, sorted⟩, fun j y => ?_⟩
  · exact first a.1 a.2 ((mem a.1 a.2).1 ha)
  · rw [List.mem_cons, mem, Prod.mk.injEq]

theorem append (h : InOrder earlier p xs) (h' : InOrder earlier q ys)
    (apart : ∀ i x j y, p i x → q j y → earlier i j) :
    InOrder earlier (fun i x => p i x ∨ q i x) (xs ++ ys) := by
  obtain ⟨placed, rfl, sorted, mem⟩ := h
  obtain ⟨placed', rfl, sorted', mem'⟩ := h'
  refine ⟨placed ++ placed', List.map_append, ?_, fun i x => ?_⟩
  · refine List.pairwise_append.2 ⟨sorted, sorted', fun a ha b hb => ?_⟩
    exact apart a.1 a.2 b.1 b.2 ((mem _ _).1 ha) ((mem' _ _).1 hb)
  · rw [List.mem_append, mem, mem']

theorem rename (h : InOrder earlier p xs) (later : κ → κ → Prop) (f : ι → κ)
    (mono : ∀ i j, earlier i j → later (f i) (f j)) :
    InOrder later (fun k x => ∃ i, k = f i ∧ p i x) xs := by
  obtain ⟨placed, rfl, sorted, mem⟩ := h
  refine ⟨placed.map fun a => (f a.1, a.2), ?_, ?_, fun k x => ?_⟩
  · rw [List.map_map]
    rfl
  · exact List.pairwise_map.2 (sorted.imp fun hab => mono _ _ hab)
  · rw [List.mem_map]
    constructor
    · rintro ⟨⟨i, y⟩, hmem, heq⟩
      cases heq
      exact ⟨i, rfl, (mem i y).1 hmem⟩
    · rintro ⟨i, rfl, hp⟩
      exact ⟨(i, x), (mem i x).2 hp, rfl⟩

theorem congr (h : InOrder earlier p xs) (same : ∀ i x, p i x ↔ q i x) : InOrder earlier q xs := by
  obtain ⟨placed, hplaced, sorted, mem⟩ := h
  exact ⟨placed, hplaced, sorted, fun i x => (mem i x).trans (same i x)⟩

/-- What stands below siblings, when it comes in the order of the paths below each of them. The first
of the siblings is child number `k`. -/
theorem siblings {stands : α → List Nat → β → Prop} {f : α → List β} (ts : List α)
    (each : ∀ t ∈ ts, InOrder (· < ·) (stands t) (f t)) (k : Nat) :
    InOrder (· < ·) (fun path s => ∃ i t inner, path = (k + i) :: inner ∧ ts[i]? = some t ∧
      stands t inner s) (ts.flatMap f) := by
  induction ts generalizing k with
  | nil => exact .nil fun path s => by simp
  | cons t ts ih =>
    have first := (each t List.mem_cons_self).rename (· < ·) (k :: ·) fun i j hij =>
      List.cons_lt_cons_iff.2 (.inr ⟨rfl, hij⟩)
    have others := ih (fun u hu => each u (List.mem_cons_of_mem _ hu)) (k + 1)
    rw [List.flatMap_cons]
    refine (first.append others ?_).congr fun path s => ?_
    · rintro path s path' s' ⟨inner, rfl, -⟩ ⟨i, u, inner', rfl, -⟩
      exact List.cons_lt_cons_iff.2 (.inl (by omega))
    · constructor
      · rintro (⟨inner, rfl, hs⟩ | ⟨i, u, inner, rfl, hu, hs⟩)
        · exact ⟨0, t, inner, rfl, rfl, hs⟩
        · exact ⟨i + 1, u, inner, by rw [Nat.add_assoc, Nat.add_comm 1], hu, hs⟩
      · rintro ⟨i, u, inner, rfl, hu, hs⟩
        cases i with
        | zero =>
          cases hu
          exact .inl ⟨inner, rfl, hs⟩
        | succ i => exact .inr ⟨i, u, inner, by rw [Nat.add_assoc, Nat.add_comm 1], hu, hs⟩

theorem findSome?_eq_none_iff (h : InOrder earlier p xs) {f : α → Option β} :
    xs.findSome? f = none ↔ ∀ i x, p i x → f x = none := by
  obtain ⟨placed, rfl, -, mem⟩ := h
  rw [List.findSome?_eq_none_iff, List.forall_mem_map]
  constructor
  · intro hall i x hp
    exact hall (i, x) ((mem i x).2 hp)
  · intro hall a ha
    exact hall a.1 a.2 ((mem _ _).1 ha)

/-- What a search finds is what stands first. -/
theorem findSome?_eq_some_iff (h : InOrder earlier p xs)
    (asymm : ∀ {i j}, earlier i j → ¬ earlier j i) {f : α → Option β} {y : β} :
    xs.findSome? f = some y ↔
      ∃ i x, p i x ∧ f x = some y ∧ ∀ j z, earlier j i → p j z → f z = none := by
  obtain ⟨placed, rfl, sorted, mem⟩ := h
  rw [List.findSome?_map, List.findSome?_eq_some_iff]
  constructor
  · rintro ⟨before, ⟨i, x⟩, after, rfl, found, missed⟩
    have hp : p i x := (mem i x).1 (by simp)
    refine ⟨i, x, hp, found, fun j z hji hz => ?_⟩
    obtain ⟨-, hafter, -⟩ := List.pairwise_append.1 sorted
    rcases List.mem_append.1 ((mem j z).2 hz) with hz | hz
    · exact missed (j, z) hz
    · rcases List.mem_cons.1 hz with hz | hz
      · cases hz
        exact absurd hji (asymm hji)
      · exact absurd hji (asymm ((List.pairwise_cons.1 hafter).1 (j, z) hz))
  · rintro ⟨i, x, hp, found, missed⟩
    obtain ⟨before, after, rfl⟩ := List.append_of_mem ((mem i x).2 hp)
    refine ⟨before, (i, x), after, rfl, found, fun a ha => ?_⟩
    have hai : earlier a.1 i := (List.pairwise_append.1 sorted).2.2 a ha (i, x) List.mem_cons_self
    exact missed a.1 a.2 hai ((mem _ _).1 (List.mem_append_left _ ha))

end InOrder

end Sentential
