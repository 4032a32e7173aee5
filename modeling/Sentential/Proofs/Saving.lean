import Sentential.Proofs.Terms

/-!
# Saved grammars load back

A saved grammar loads back as itself, or it is no saved grammar that could be loaded. Which of the
two is the case can be told from its biases and from its text.
-/
namespace Sentential

open Text Json Reader

namespace Catalogue

theorem put_of_lt {name : String} {term : Term} {entries : List (String × Term)}
    (h : ∀ e ∈ entries, e.1 < name) : put name term entries = entries ++ [(name, term)] := by
  induction entries with
  | nil => rfl
  | cons e entries ih =>
    obtain ⟨he, hentries⟩ := List.forall_mem_cons.1 h
    rw [put, if_neg (String.lt_asymm he), if_pos he, ih hentries]
    rfl

/-- Reads a member of the productions. -/
def takeProduction (depth : Nat) (name : String) (c : Catalogue) : Reader Catalogue := do
  Reader.mark 0x3A
  let term ← Term.within depth
  pure (c.insert name term)

/-- Productions that come in ascending order make up the catalogue they were taken from. -/
theorem fills (depth : Nat) {rest : List (String × Term)} {c d : Catalogue}
    (hd : d.entries = c.entries ++ rest)
    (h : ∀ e ∈ rest, e.2.All fun x => x.isFinite = true → ReadsBack x) :
    Fills (takeProduction depth) c (rest.map fun e => (e.1, e.2.toJson))
      (∀ e ∈ rest, e.2.toJson.height < depth ∧ e.2.All fun x => x.isFinite = true) d := by
  induction rest generalizing c with
  | nil =>
    obtain rfl : d = c := by
      obtain ⟨entries, ascending⟩ := d
      obtain ⟨entries', ascending'⟩ := c
      rw [List.append_nil] at hd
      cases hd
      rfl
    have hnil : (∀ e ∈ ([] : List (String × Term)), e.2.toJson.height < depth ∧
        e.2.All fun x => x.isFinite = true) = True := eq_true nofun
    rw [hnil]
    exact .nil d
  | cons e rest ih =>
    obtain ⟨he, hrest⟩ := List.forall_mem_cons.1 h
    have hascending := d.ascending
    rw [hd] at hascending
    have hlt : ∀ f ∈ c.entries, f.1 < e.1 := by
      intro f hf
      exact (List.pairwise_append.1 hascending).2.2 f hf e List.mem_cons_self
    have hinsert : (c.insert e.1 e.2).entries = c.entries ++ [e] := put_of_lt hlt
    have hmember : Enters (takeProduction depth) c (e.1, e.2.toJson)
        (e.2.toJson.height < depth ∧ e.2.All fun x => x.isFinite = true) (c.insert e.1 e.2) := by
      intro level rest hdelimited
      have hblank : Blank [0x20] := List.forall_mem_singleton.2 rfl
      refine .after (mark_spaced blank_nil (by decide) _) ?_
      exact (Term.takes e.2 he depth hblank hdelimited).followed rfl
    rw [List.map_cons, List.forall_mem_cons]
    refine .cons hmember (ih ?_ hrest)
    rw [hd, hinsert, List.append_assoc]
    rfl

end Catalogue

namespace Term

mutual

theorem plainNumbers (t : Term) : PlainNumbers t.toJson :=
  match t with
  | literal _ | reference _ => ⟨trivial, trivial⟩
  | epsilon => trivial
  | sequence ts => ⟨plainItems ts, trivial⟩
  | alternatives options => ⟨plainChoices options, trivial⟩
  | optional t p => ⟨⟨plainNumbers t, plainNumbers_ofFloat p, trivial⟩, trivial⟩
  | repetition t b => by
    have hmembers : PlainMembers b.members := by
      obtain ⟨least, _ | most, _ | expected⟩ := b
      · exact ⟨plainNumbers_ofNat _, trivial⟩
      · exact ⟨plainNumbers_ofNat _, plainNumbers_ofNat _, trivial⟩
      · exact ⟨plainNumbers_ofNat _, plainNumbers_ofNat _, trivial⟩
      · exact ⟨plainNumbers_ofNat _, plainNumbers_ofNat _, plainNumbers_ofNat _, trivial⟩
    exact ⟨⟨plainNumbers t, hmembers⟩, trivial⟩
  | characters ⟨name, exclusions⟩ => by
    have hstrings : PlainItems (exclusions.map fun c => .string (String.singleton c)) := by
      rw [plainItems_iff, List.forall_mem_map]
      exact fun _ _ => trivial
    cases exclusions with
    | nil => exact ⟨⟨trivial, trivial⟩, trivial⟩
    | cons c exclusions => exact ⟨⟨trivial, hstrings, trivial⟩, trivial⟩

theorem plainItems (ts : List Term) : PlainItems (toJsonAll ts) :=
  match ts with
  | [] => trivial
  | t :: ts => ⟨plainNumbers t, plainItems ts⟩

theorem plainChoices (options : List Choice) : PlainItems (toJsonChoices options) :=
  match options with
  | [] => trivial
  | ⟨t, w⟩ :: options => ⟨⟨plainNumbers t, plainNumbers_ofFloat w, trivial⟩, plainChoices options⟩

end

mutual

theorem same_self (t : Term) (h : t.All fun x => x.isFinite = true) : t.same t = true :=
  match t, h with
  | literal _, _ | reference _, _ | characters _, _ => beq_self_eq_true _
  | epsilon, _ => rfl
  | sequence ts, h => sameAll_self ts (all_sequence.1 h)
  | alternatives options, h => sameChoices_self options (all_alternatives.1 h)
  | optional t p, h => by
    obtain ⟨ht, hp⟩ := all_optional.1 h
    rw [same, same_self t ht, Finite.beq_self hp]
    rfl
  | repetition t b, h => by
    rw [same, same_self t (all_repetition.1 h), beq_self_eq_true]
    rfl

theorem sameAll_self (ts : List Term) (h : ∀ t ∈ ts, t.All fun x => x.isFinite = true) :
    sameAll ts ts = true :=
  match ts, h with
  | [], _ => rfl
  | t :: ts, h => by
    obtain ⟨ht, hts⟩ := List.forall_mem_cons.1 h
    rw [sameAll, same_self t ht, sameAll_self ts hts]
    rfl

theorem sameChoices_self (options : List Choice) (h : ∀ c ∈ options,
      (c.item.All fun x => x.isFinite = true) ∧ c.weight.isFinite = true) :
    sameChoices options options = true :=
  match options, h with
  | [], _ => rfl
  | ⟨t, w⟩ :: options, h => by
    obtain ⟨⟨ht, hw⟩, hoptions⟩ := List.forall_mem_cons.1 h
    rw [sameChoices, same_self t ht, Finite.beq_self hw, sameChoices_self options hoptions]
    rfl

end

end Term

namespace Grammar

variable {g : Grammar}

/-- The biases of all alternatives of a grammar. -/
def biases (g : Grammar) : List Float := g.terms.flatMap fun x => x.2.biases

/-- The biases and probabilities of a grammar. -/
def numbers (g : Grammar) : List Float := g.terms.flatMap fun x => x.2.numbers

theorem forall_numbers {p : Float → Prop} :
    (∀ x ∈ g.numbers, p x) ↔ ∀ e ∈ g.productions.entries, e.2.All p := by
  simp only [numbers, terms_eq, List.forall_mem_flatMap, List.forall_mem_map]
  rfl

/-- The numbers of a sound grammar are finite if its biases are: the others are probabilities. -/
theorem Sound.numbers_finite (sound : g.Sound) :
    (∀ x ∈ g.numbers, x.isFinite = true) ↔ ∀ x ∈ g.biases, x.isFinite = true := by
  simp only [numbers, biases, List.forall_mem_flatMap]
  refine forall₂_congr fun e he => ?_
  have hflaw := sound.flaw?_eq_none e he
  obtain ⟨name, t⟩ := e
  cases t with
  | optional t p =>
    obtain ⟨h₀, h₁⟩ := unit_of_flaw? hflaw
    have hfinite := Finite.isFinite_of_unit h₀ h₁
    exact ⟨fun _ => nofun, fun _ => List.forall_mem_singleton.2 hfinite⟩
  | literal | sequence | alternatives | reference | repetition | characters | epsilon => exact Iff.rfl

theorem height_le_iff (d : Nat) : g.toJson.height ≤ d + 2 ↔
    ∀ e ∈ g.productions.entries, e.2.toJson.height < d + 1 := by
  have hheight : g.toJson.height = max 0 (max (heightMembers
      (g.productions.entries.map fun e => (e.1, e.2.toJson)) + 1) 0) + 1 := rfl
  have hlt : heightMembers (g.productions.entries.map fun e => (e.1, e.2.toJson)) < d + 1 ↔ _ :=
    heightMembers_lt
  rw [List.forall_mem_map, and_iff_right (Nat.succ_pos d)] at hlt
  rw [hheight, ← hlt]
  omega

theorem takes (h : ∀ x ∈ g.numbers, x.isFinite = true → ReadsBack x) :
    Takes reader g.toJson
      (g.toJson.height ≤ bracketLimit ∧ ∀ x ∈ g.numbers, x.isFinite = true) g := by
  have hlanguage : Enters (takeField (fields (bracketLimit - 1))) ⟨none, none⟩
      ("language", .string g.language) True ⟨some g.language, none⟩ :=
    enters_field rfl rfl ((takes_string g.language).followed fun _ => rfl)
  have hobject : Takes (productionsReader (bracketLimit - 1))
      (.object (g.productions.entries.map fun e => (e.1, e.2.toJson))) _ g.productions :=
    takes_object (0 < bracketLimit - 1)
      (Catalogue.fills 126 (List.nil_append _).symm (forall_numbers.1 h))
  have hproductions : Enters (takeField (fields (bracketLimit - 1))) ⟨some g.language, none⟩
      ("productions", .object (g.productions.entries.map fun e => (e.1, e.2.toJson))) _
      ⟨some g.language, some g.productions⟩ :=
    enters_field rfl rfl (hobject.followed fun _ => rfl)
  have hrecord := takes_record (0 < bracketLimit) (.cons hlanguage (.cons hproductions (.nil _)))
  have hreader : Takes reader g.toJson _ g := hrecord.followed fun _ => rfl
  refine hreader.congr ?_
  have hlimit : bracketLimit = 125 + 2 := rfl
  rw [hlimit, height_le_iff, forall_numbers]
  simp [imp_and, forall_and]

theorem settles_read (h : ∀ x ∈ g.numbers, x.isFinite = true → ReadsBack x) :
    Settles reader (bytes g.save)
      (g.toJson.height ≤ bracketLimit ∧ ∀ x ∈ g.numbers, x.isFinite = true) g [] := by
  have hsettles := @takes g h [] 0 [] blank_nil trivial
  rw [List.nil_append, List.append_nil, ← bytes_pretty] at hsettles
  exact hsettles

theorem load_of_read {input : Bytes} (sound : g.Sound) (h : reader input = .ok (g, [])) :
    (load input).result = .ok g := by
  have hread : read input = .ok g := by
    rw [read, run, h]
    rfl
  have hresult : g.inspect.result = .ok () := sound
  rw [load, hread]
  change g.inspect.result.map (fun _ => g) = .ok g
  rw [hresult]
  rfl

theorem load_of_read_error {input : Bytes} {cause : FormatFault} (h : reader input = .error cause) :
    (load input).result = .error (.format cause) := by
  have hread : read input = .error cause := by
    rw [read, run, h]
  rw [load, hread]

theorem deepest_save (g : Grammar) : deepest g.save = g.toJson.height := by
  have hentries : PlainMembers (g.productions.entries.map fun e => (e.1, e.2.toJson)) := by
    rw [plainMembers_iff, List.forall_mem_map]
    exact fun e _ => e.2.plainNumbers
  exact deepest_pretty ⟨trivial, hentries, trivial⟩

theorem same_self (h : ∀ x ∈ g.numbers, x.isFinite = true) : g.same g = true := by
  have hterms : ∀ t ∈ g.productions.entries.map Prod.snd, t.All fun x => x.isFinite = true := by
    rw [List.forall_mem_map]
    exact forall_numbers.1 h
  rw [same, Catalogue.same, beq_self_eq_true, beq_self_eq_true, Term.sameAll_self _ hterms]
  rfl

/-- A saved grammar loads back exactly if all its biases are finite and its text opens no more
brackets at once than can be open. Otherwise its text is refused. -/
theorem load_save_iff (sound : g.Sound)
    (readsBack : ∀ x ∈ g.numbers, x.isFinite = true → ReadsBack x) :
    ((∃ h, (load (bytes g.save)).result = .ok h ∧ g.same h = true) ↔
      (∀ x ∈ g.biases, x.isFinite = true) ∧ deepest g.save ≤ 127) ∧
    (¬((∀ x ∈ g.biases, x.isFinite = true) ∧ deepest g.save ≤ 127) →
      ∃ cause, (load (bytes g.save)).result = .error (.format cause)) := by
  have hsettles := settles_read readsBack
  rw [sound.numbers_finite, ← deepest_save] at hsettles
  have hfail : ¬((∀ x ∈ g.biases, x.isFinite = true) ∧ deepest g.save ≤ 127) →
      ∃ cause, (load (bytes g.save)).result = .error (.format cause) := by
    intro hn
    obtain ⟨cause, hcause⟩ := hsettles.error fun h => hn h.symm
    exact ⟨cause, load_of_read_error hcause⟩
  refine ⟨⟨?_, ?_⟩, hfail⟩
  · rintro ⟨h, hload, -⟩
    by_cases hgood : (∀ x ∈ g.biases, x.isFinite = true) ∧ deepest g.save ≤ 127
    · exact hgood
    · obtain ⟨cause, hcause⟩ := hfail hgood
      rw [hload] at hcause
      cases hcause
  · intro h
    refine ⟨g, load_of_read sound (hsettles.ok h.symm), ?_⟩
    exact same_self (sound.numbers_finite.2 h.1)

/-- A farewell that may be repeated, now and then. -/
def farewell : Grammar where
  language := "Farewell"
  productions := ⟨[("Farewell", .sequence [.literal "Bye", .optional
    (.alternatives [⟨.literal "!", 1⟩, ⟨.reference "Farewell", 0.25⟩]) 0.5])],
      List.pairwise_singleton _ _⟩

set_option maxRecDepth 2000 in
theorem load_save_farewell : farewell.Sound ∧
    (∀ x ∈ farewell.numbers, x.isFinite = true → ReadsBack x) ∧
      ∃ h, (load (bytes farewell.save)).result = .ok h ∧ farewell.same h = true := by
  have sound : farewell.Sound := by
    simp only [Sound, inspect, terms_eq]
    rfl
  have readsBack : ∀ x ∈ farewell.numbers, x.isFinite = true → ReadsBack x := by
    have hnumbers : farewell.numbers = [0.5, 1, 0.25] := by
      simp only [numbers, terms_eq]
      rfl
    rw [hnumbers]
    intro x hx _
    simp only [List.mem_cons, List.not_mem_nil, or_false] at hx
    rcases hx with rfl | rfl | rfl
    · exact .of_chars ['0', '.', '5'] (by decide +kernel) rfl
    · exact .of_chars ['1', '.', '0'] (by decide +kernel) rfl
    · exact .of_chars ['0', '.', '2', '5'] (by decide +kernel) rfl
  have finite : ∀ x ∈ farewell.biases, x.isFinite = true := by decide +kernel
  have brackets : deepest farewell.save ≤ 127 := by
    rw [deepest_save]
    decide +kernel
  exact ⟨sound, readsBack, (load_save_iff sound readsBack).1.2 ⟨finite, brackets⟩⟩

end Grammar

end Sentential
