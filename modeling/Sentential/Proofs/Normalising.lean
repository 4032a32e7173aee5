import Sentential.Proofs.Saving

/-!
# Loaded grammars are saved in one form

What holds of every grammar that is read, however its text is laid out: its numbers are finite, and
there is room for its brackets, since the text it came from opened no fewer. So it is saved as a text
that loads back as the same grammar and is the same when it is saved again.
-/
namespace Sentential

open Text Json Reader

/-! ## Guarantees of readers -/

namespace Json.Reader

variable {α β σ : Type} {r : Reader α} {P Q : α → Prop} {I : σ → Prop}

theorem Ensures.mono (h : Ensures r P) (hpq : ∀ v, P v → Q v) : Ensures r Q :=
  fun _ _ _ hr => hpq _ (h hr)

theorem Ensures.map {f : α → β} {Q : β → Prop} (h : Ensures r P) (hf : ∀ v, P v → Q (f v)) :
    Ensures (f <$> r) Q := by
  rw [map_eq_pure_bind]
  exact h.bind fun v hv => ensures_pure (hf v hv)

theorem ensures_true : Ensures r fun _ => True := fun _ _ _ _ => trivial

theorem ensures_items {item : Reader α} (h : Ensures item P) (bound : Bytes) (first : Bool) :
    Ensures (items item bound first) fun vs => ∀ v ∈ vs, P v := by
  induction bound generalizing first with
  | nil => exact ensures_fail _
  | cons b bound ih =>
    refine .after fun goesOn => ?_
    split
    · refine h.bind fun v hv => (ih false).bind fun vs hvs => ensures_pure ?_
      exact List.forall_mem_cons.2 ⟨hv, hvs⟩
    · exact .after fun _ => ensures_pure nofun

theorem ensures_list (room : Bool) {item : Reader α} (h : Ensures item P) :
    Ensures (list room item) fun vs => room = true ∧ ∀ v ∈ vs, P v := by
  refine .after fun b => ?_
  split
  · split
    · rename_i hroom
      refine .after fun _ => .after fun bound => ?_
      exact (ensures_items h bound true).mono fun vs hvs => ⟨hroom, hvs⟩
    · exact ensures_fail _
  · exact ensures_wrongShape

/-- What holds of the state of a record or an object is kept by all of its members. -/
theorem ensures_members {take : String → σ → Reader σ}
    (htake : ∀ name s, I s → Ensures (take name s) I) (bound : Bytes) (first : Bool) {s : σ}
    (hs : I s) : Ensures (members take bound first s) I := by
  induction bound generalizing first s with
  | nil => exact ensures_fail _
  | cons b bound ih =>
    refine .after fun goesOn => ?_
    split
    · exact .after fun name => (htake name s hs).bind fun t ht => ih false ht
    · exact .after fun _ => ensures_pure hs

theorem ensures_object (room : Bool) {take : String → σ → Reader σ} {start : σ}
    (htake : ∀ name s, I s → Ensures (take name s) I) (hstart : I start) :
    Ensures (object room take start) fun s => room = true ∧ I s := by
  refine .after fun b => ?_
  split
  · split
    · rename_i hroom
      refine .after fun _ => .after fun bound => ?_
      exact (ensures_members htake bound true hstart).mono fun s hs => ⟨hroom, hs⟩
    · exact ensures_fail _
  · exact ensures_wrongShape

theorem ensures_positional {fields : List (Slot σ)}
    (hfields : ∀ field ∈ fields, ∀ s, I s → Ensures (field.read s) I) (first : Bool) {s : σ}
    (hs : I s) : Ensures (positional fields first s) I := by
  induction fields generalizing first s with
  | nil => exact .after fun _ => ensures_pure hs
  | cons field fields ih =>
    obtain ⟨hfield, hfields⟩ := List.forall_mem_cons.1 hfields
    refine .after fun goesOn => ?_
    split
    · exact (hfield s hs).bind fun t ht => ih hfields false ht
    · exact .after fun _ => ensures_pure hs

theorem ensures_takeField {fields : List (Slot σ)}
    (hfields : ∀ field ∈ fields, ∀ s, I s → Ensures (field.read s) I) (name : String) (s : σ)
    (hs : I s) : Ensures (takeField fields name s) I := by
  unfold takeField
  split
  · rename_i field hfind
    split
    · exact ensures_fail _
    · exact .after fun _ => hfields field (List.mem_of_find?_eq_some hfind) s hs
  · exact .after fun _ => .after fun _ => ensures_pure hs

/-- A record keeps what each of its fields keeps, whichever way it is written. -/
theorem ensures_record (room : Bool) {fields : List (Slot σ)} {start : σ}
    (hfields : ∀ field ∈ fields, ∀ s, I s → Ensures (field.read s) I) (hstart : I start) :
    Ensures (record room fields start) fun s => room = true ∧ I s := by
  refine .after fun b => ?_
  split
  · split
    · rename_i hroom
      refine .after fun _ => ?_
      split
      · refine .after fun bound => ?_
        exact (ensures_members (ensures_takeField hfields) bound true hstart).mono
          fun s hs => ⟨hroom, hs⟩
      · exact (ensures_positional hfields true hstart).mono fun s hs => ⟨hroom, hs⟩
    · exact ensures_fail _
  · exact ensures_wrongShape

theorem ensures_required {v? : Option α} (h : ∀ v, v? = some v → P v) : Ensures (required v?) P := by
  cases v? with
  | none => exact ensures_fail _
  | some v => exact ensures_pure (h v rfl)

end Json.Reader

/-! ## Terms that have been read -/

namespace CharacterSet

theorem ensures_reader (depth : Nat) :
    Ensures (CharacterSet.reader depth) fun set => set.toJson.height ≤ depth := by
  have hfields : ∀ field ∈ fields (1 < depth), ∀ s, (∀ l, s.exclusions = some l → 1 < depth) →
      Ensures (field.read s) fun s => ∀ l, s.exclusions = some l → 1 < depth := by
    intro field hfield s hs
    simp only [fields, List.mem_cons, List.not_mem_nil, or_false] at hfield
    rcases hfield with rfl | rfl
    · exact .after fun v => ensures_pure hs
    · refine (ensures_list (1 < depth) (ensures_true (r := Reader.character))).bind fun v hv => ?_
      exact ensures_pure fun _ _ => of_decide_eq_true hv.1
  refine (ensures_record (0 < depth) hfields (by simp)).bind fun s hs => ?_
  obtain ⟨hroom, hexclusions⟩ := hs
  refine .after fun name => ensures_pure (height_le_iff.2 ⟨of_decide_eq_true hroom, ?_⟩)
  intro hne
  cases hs : s.exclusions with
  | none => exact absurd (by rw [hs]; rfl) hne
  | some l => exact hexclusions l hs

end CharacterSet

namespace Term

/-- There is room for the brackets of a term, and its numbers are finite. -/
def Fits (depth : Nat) (t : Term) : Prop :=
  t.toJson.height < depth ∧ t.All fun x => x.isFinite = true

variable {depth : Nat} {sub inner : Reader Term}

theorem ensures_numbered {P : Term → Prop} {room : Bool} {number : String} {default : Float}
    (hdefault : default.isFinite = true) (hsub : Ensures sub P) :
    Ensures (numbered room number default sub) fun x =>
      room = true ∧ P x.1 ∧ x.2.isFinite = true := by
  have hfields : ∀ field ∈ numberedFields number sub, ∀ s,
      ((∀ t, s.term = some t → P t) ∧ ∀ x, s.number = some x → x.isFinite = true) →
      Ensures (field.read s) fun s =>
        (∀ t, s.term = some t → P t) ∧ ∀ x, s.number = some x → x.isFinite = true := by
    intro field hfield s hs
    simp only [numberedFields, List.mem_cons, List.not_mem_nil, or_false] at hfield
    rcases hfield with rfl | rfl
    · refine hsub.bind fun t ht => ensures_pure ⟨?_, hs.2⟩
      intro u hu
      cases hu
      exact ht
    · refine ensures_float.bind fun x hx => ensures_pure ⟨hs.1, ?_⟩
      intro y hy
      cases hy
      exact hx
  have hstart : (∀ t, (none : Option Term) = some t → P t) ∧
      ∀ x, (none : Option Float) = some x → x.isFinite = true := by simp
  refine (ensures_record room hfields hstart).bind fun s hs => ?_
  obtain ⟨hroom, hterm, hnumber⟩ := hs
  refine (ensures_required hterm).bind fun t ht => ensures_pure ⟨hroom, ht, ?_⟩
  cases hs : s.number with
  | none => exact hdefault
  | some x => exact hnumber x hs

theorem ensures_repetition {P : Term → Prop} (room : Bool) (hsub : Ensures sub P) :
    Ensures (repetitionReader room sub) fun t =>
      ∃ u b, t = repetition u b ∧ room = true ∧ P u := by
  have hfields : ∀ field ∈ repetitionFields sub, ∀ s, (∀ t, s.term = some t → P t) →
      Ensures (field.read s) fun s => ∀ t, s.term = some t → P t := by
    intro field hfield s hs
    simp only [repetitionFields, List.mem_cons, List.not_mem_nil, or_false] at hfield
    rcases hfield with rfl | rfl | rfl | rfl
    · refine hsub.bind fun t ht => ensures_pure ?_
      intro u hu
      cases hu
      exact ht
    · exact .after fun _ => ensures_pure hs
    · exact .after fun _ => ensures_pure hs
    · exact .after fun _ => ensures_pure hs
  have hstart : ∀ t, (none : Option Term) = some t → P t := nofun
  refine (ensures_record room hfields hstart).bind fun s hs => ?_
  exact (ensures_required hs.2).bind fun t ht => ensures_pure ⟨t, _, rfl, hs.1, ht⟩

/-- What stands in the braces of a term takes two brackets more than the terms in it. -/
theorem ensures_kind (hsub : Ensures sub (Fits depth)) (hinner : Ensures inner (Fits (depth - 1))) :
    Ensures (kind depth sub inner) (Fits (depth + 2)) := by
  have behind : ∀ {r : Reader Term}, Ensures r (Fits (depth + 2)) →
      Ensures (pure r >>= fun value => Reader.mark 0x3A >>= fun _ => value) (Fits (depth + 2)) := by
    intro r hr
    exact (ensures_pure (P := fun r => Ensures r (Fits (depth + 2))) hr).bind
      fun value hvalue => .after fun _ => hvalue
  have leaf : ∀ {t : Term}, t.toJson.height = 1 → t.parts [] = [t] → t.numbers = [] →
      Fits (depth + 2) t := by
    intro t hheight hparts hnumbers
    exact ⟨by omega, all_leaf hparts hnumbers⟩
  refine .after fun name => ?_
  split
  · exact behind (ensures_true.map fun text _ => leaf rfl rfl rfl)
  · exact behind (ensures_true.map fun production _ => leaf rfl rfl rfl)
  · refine behind (ensures_true.map fun _ _ => ⟨?_, all_leaf rfl rfl⟩)
    exact Nat.succ_pos _
  · refine behind ((ensures_list _ hsub).map fun ts hts => ⟨?_, ?_⟩)
    · refine height_sequence_lt.2 ⟨by omega, of_decide_eq_true hts.1, fun t ht => ?_⟩
      exact (hts.2 t ht).1
    · exact all_sequence.2 fun t ht => (hts.2 t ht).2
  · have hnumbered : Ensures (numbered (1 < depth) "bias" 1 inner) _ :=
      ensures_numbered (by decide +kernel) hinner
    have hchoices := ensures_list (0 < depth) hnumbered
    refine behind (hchoices.map fun options hoptions => ?_)
    obtain ⟨hroom, hoptions⟩ := hoptions
    refine ⟨height_alternatives_lt.2 ⟨by omega, of_decide_eq_true hroom, ?_⟩, all_alternatives.2 ?_⟩
    · rw [List.forall_mem_map]
      exact fun x hx => ⟨of_decide_eq_true (hoptions x hx).1, (hoptions x hx).2.1.1⟩
    · rw [List.forall_mem_map]
      exact fun x hx => ⟨(hoptions x hx).2.1.2, (hoptions x hx).2.2⟩
  · refine behind ((ensures_numbered (by decide +kernel) hsub).map fun x hx => ⟨?_, ?_⟩)
    · obtain ⟨-, ⟨hheight, -⟩, -⟩ := hx
      rw [height_optional]
      omega
    · exact all_optional.2 ⟨hx.2.1.2, hx.2.2⟩
  · refine behind ((ensures_repetition _ hsub).mono fun t ht => ?_)
    obtain ⟨u, b, rfl, -, hheight, hall⟩ := ht
    refine ⟨?_, all_repetition.2 hall⟩
    rw [height_repetition]
    omega
  · refine behind ((CharacterSet.ensures_reader depth).map fun set hset => ⟨?_, all_leaf rfl rfl⟩)
    change max set.toJson.height 0 + 1 < depth + 2
    omega
  · exact (ensures_fail (P := fun _ => False) _).bind fun _ h => h.elim

theorem ensures_enclosed {inside : Option (Reader Term)} (hdepth : 0 < depth)
    (h : ∀ r, inside = some r → Ensures r (Fits depth)) : Ensures (enclosed inside) (Fits depth) := by
  refine .after fun b => ?_
  split
  · cases inside with
    | none => exact ensures_fail _
    | some r =>
      exact .after fun _ => (h r rfl).bind fun t ht => .after fun _ => ensures_pure ht
  · split
    · refine .after fun word => ?_
      split
      · exact ensures_pure ⟨hdepth, all_leaf rfl rfl⟩
      · exact ensures_fail _
    · exact ensures_fail _

theorem ensures_within (depth : Nat) : Ensures (within depth) (Fits depth) := by
  induction depth using Nat.strongRecOn with
  | ind depth ih =>
    rcases depth with _ | _ | depth
    · exact ensures_fail _
    · rw [within, reader]
      refine ensures_enclosed Nat.one_pos fun r hr => ?_
      cases hr
    · rw [within, reader_succ]
      refine ensures_enclosed (Nat.succ_pos _) fun r hr => ?_
      cases hr
      exact ensures_kind (ih depth (by omega)) (ih (depth - 1) (by omega))

end Term

namespace Grammar

theorem ensures_productionsReader (depth : Nat) : Ensures (productionsReader (depth + 1))
    fun c => ∀ e ∈ c.entries, e.2.Fits (depth + 1) := by
  have htake : ∀ name (c : Catalogue), (∀ e ∈ c.entries, e.2.Fits (depth + 1)) →
      Ensures (Catalogue.takeProduction (depth + 1) name c)
        fun c => ∀ e ∈ c.entries, e.2.Fits (depth + 1) := by
    intro name c hc
    refine .after fun _ => (Term.ensures_within (depth + 1)).bind fun t ht => ensures_pure ?_
    intro e he
    rcases Catalogue.mem_put he with rfl | he
    · exact ht
    · exact hc e he
  have hempty : ∀ e ∈ Catalogue.empty.entries, e.2.Fits (depth + 1) :=
    fun e he => absurd he List.not_mem_nil
  exact (ensures_object _ htake hempty).mono fun c hc => hc.2

theorem ensures_reader : Ensures reader fun g =>
    g.toJson.height ≤ bracketLimit ∧ ∀ x ∈ g.numbers, x.isFinite = true := by
  have hfields : ∀ field ∈ fields (bracketLimit - 1), ∀ s,
      (∀ c, s.productions = some c → ∀ e ∈ c.entries, e.2.Fits 126) →
      Ensures (field.read s) fun s => ∀ c, s.productions = some c → ∀ e ∈ c.entries, e.2.Fits 126 := by
    intro field hfield s hs
    simp only [fields, List.mem_cons, List.not_mem_nil, or_false] at hfield
    rcases hfield with rfl | rfl
    · exact .after fun _ => ensures_pure hs
    · refine (ensures_productionsReader 125).bind fun c hc => ensures_pure ?_
      intro d hd
      cases hd
      exact hc
  have hstart : ∀ c, (none : Option Catalogue) = some c → ∀ e ∈ c.entries, e.2.Fits 126 := nofun
  refine (ensures_record _ hfields hstart).bind fun s hs => .after fun language => ?_
  refine (ensures_required hs.2).bind fun c hc => ensures_pure ?_
  have hlimit : bracketLimit = 125 + 2 := rfl
  rw [hlimit, height_le_iff, forall_numbers]
  exact ⟨fun e he => (hc e he).1, fun e he => (hc e he).2⟩

theorem reader_of_read {input : Bytes} {g : Grammar} (h : read input = .ok g) :
    ∃ rest, reader input = .ok (g, rest) := by
  rw [read, Reader.run] at h
  cases hreader : reader input with
  | error cause =>
    rw [hreader] at h
    cases h
  | ok x =>
    rw [hreader] at h
    obtain ⟨f, rest⟩ := x
    change (if rest.all isSpace then .ok f else .error FormatFault.malformed) = Except.ok g at h
    split at h
    · cases h
      exact ⟨rest, rfl⟩
    · cases h

/-- Whatever text a grammar is loaded from, it is saved as a text that loads as the same grammar, and
that grammar is saved as that text. -/
theorem load_normalises {input : Bytes} {g : Grammar} (hload : (load input).result = .ok g)
    (readsBack : ∀ x ∈ g.numbers, x.isFinite = true → ReadsBack x) :
    ∃ h, (load (bytes g.save)).result = .ok h ∧ g.same h = true ∧ h.save = g.save := by
  obtain ⟨hread, sound⟩ := read_of_load hload
  obtain ⟨rest, hreader⟩ := reader_of_read hread
  have hfits := ensures_reader hreader
  exact ⟨g, load_of_read sound ((settles_read readsBack).ok hfits), same_self hfits.2, rfl⟩

/-- A text with a member that nobody knows, a list for an object and a probability that goes without
saying. -/
def untidy : Bytes :=
  bytes <| "\x7b\"language\":\"A\",\"x\":[1],\"productions\":" ++
    "\x7b\"A\":\x7b\"optional\":[\"epsilon\"]\x7d\x7d\x7d"

theorem load_untidy : ∃ g, (load untidy).result = .ok g ∧ g.numbers = [0.5] := by
  have h : (match (load untidy).result with
      | .ok g => decide (g.numbers = [0.5])
      | _ => false) = true := by decide +kernel
  cases hload : (load untidy).result with
  | error cause =>
    rw [hload] at h
    cases h
  | ok g =>
    rw [hload] at h
    exact ⟨g, rfl, of_decide_eq_true h⟩

theorem load_normalises_untidy : ∃ g, (load untidy).result = .ok g ∧
    (∀ x ∈ g.numbers, x.isFinite = true → ReadsBack x) ∧
      ∃ h, (load (bytes g.save)).result = .ok h ∧ g.same h = true ∧ h.save = g.save := by
  obtain ⟨g, hload, hnumbers⟩ := load_untidy
  have readsBack : ∀ x ∈ g.numbers, x.isFinite = true → ReadsBack x := by
    rw [hnumbers]
    intro x hx _
    rw [List.mem_singleton.1 hx]
    exact .of_chars ['0', '.', '5'] (by decide +kernel) rfl
  exact ⟨g, hload, readsBack, load_normalises hload readsBack⟩

end Grammar

end Sentential
