import Sentential.Grammar.Loaded
import Sentential.Grammar.Saved
import Sentential.Proofs.Brackets
import Sentential.Proofs.Flawless
import Sentential.Proofs.Shapes

/-!
# Written terms

What the reader of terms does in front of a written one. The term is taken if there is room for its
brackets and all numbers in it are finite, however deep they are nested. The terms of alternatives
stand behind one bracket more than those of the other kinds.
-/
namespace Sentential

open Text Json Reader

namespace Term

/-- The biases that a term itself holds. -/
def biases : Term → List Float
  | alternatives options => options.map Weighted.weight
  | _ => []

/-- The numbers that a term itself holds. -/
def numbers : Term → List Float
  | alternatives options => options.map Weighted.weight
  | optional _ p => [p]
  | _ => []

variable {p : Float → Prop}

/-- Every number in a term has a property, however deep it is nested. -/
def All (p : Float → Prop) (t : Term) : Prop := ∀ s ∈ t.parts [], ∀ x ∈ s.numbers, p x

theorem all_iff {t : Term} {rest : List Term} (h : t.parts [] = t :: rest) :
    t.All p ↔ (∀ x ∈ t.numbers, p x) ∧ ∀ s ∈ rest, ∀ x ∈ s.numbers, p x := by
  rw [All, h, List.forall_mem_cons]

/-- A term that holds neither terms nor numbers. -/
theorem all_leaf {t : Term} (hparts : t.parts [] = [t]) (hnumbers : t.numbers = []) : t.All p := by
  rw [all_iff hparts, hnumbers]
  exact ⟨nofun, nofun⟩

theorem all_sequence {ts : List Term} : (sequence ts).All p ↔ ∀ t ∈ ts, t.All p := by
  rw [all_iff rfl]
  constructor
  · rintro ⟨-, h⟩ t ht s hs
    exact h s (mem_partsAll.2 ⟨t, ht, hs⟩)
  · intro h
    refine ⟨nofun, fun s hs => ?_⟩
    obtain ⟨t, ht, hs⟩ := mem_partsAll.1 hs
    exact h t ht s hs

theorem all_alternatives {options : List Choice} :
    (alternatives options).All p ↔ ∀ c ∈ options, c.item.All p ∧ p c.weight := by
  rw [all_iff rfl]
  constructor
  · rintro ⟨hweights, hitems⟩ c hc
    refine ⟨fun s hs => hitems s (mem_partsChoices.2 ⟨c, hc, hs⟩), ?_⟩
    exact hweights c.weight (List.mem_map_of_mem hc)
  · intro h
    refine ⟨fun x hx => ?_, fun s hs => ?_⟩
    · obtain ⟨c, hc, rfl⟩ := List.mem_map.1 hx
      exact (h c hc).2
    · obtain ⟨c, hc, hs⟩ := mem_partsChoices.1 hs
      exact (h c hc).1 s hs

theorem all_optional {t : Term} {x : Float} : (optional t x).All p ↔ t.All p ∧ p x := by
  rw [all_iff rfl, and_comm]
  exact and_congr_right fun _ => List.forall_mem_singleton

theorem all_repetition {t : Term} {b : Bounds} : (repetition t b).All p ↔ t.All p := by
  rw [all_iff rfl]
  exact and_iff_right nofun

theorem toJsonAll_eq_map (ts : List Term) : toJsonAll ts = ts.map toJson := by
  induction ts with
  | nil => rfl
  | cons t ts ih => rw [toJsonAll, ih, List.map_cons]

def choiceJson (c : Choice) : Json := .object [("term", c.item.toJson), ("bias", .ofFloat c.weight)]

theorem toJsonChoices_eq_map (options : List Choice) :
    toJsonChoices options = options.map choiceJson := by
  induction options with
  | nil => rfl
  | cons c options ih => rw [toJsonChoices, ih, List.map_cons, choiceJson]

/-! ## Terms -/

/-- Reads a term when fewer than the given number of brackets are open in it. -/
def within : Nat → Reader Term
  | 0 => fail .malformed
  | depth + 1 => reader depth

theorem reader_succ (depth : Nat) :
    reader (depth + 1) = enclosed (some (kind depth (within depth) (within (depth - 1)))) := by
  match depth with
  | 0 | 1 | depth + 2 =>
    simp only [reader]
    rfl

theorem kind_of_blank {depth : Nat} {sub inner : Reader Term} {pad : Bytes} (hpad : Blank pad)
    (input : Bytes) : kind depth sub inner (pad ++ input) = kind depth sub inner input := by
  rw [kind, bind_run, name_of_blank hpad]
  rfl

/-- An object with one member, which is named for the kind of the term. -/
theorem takes_tagged (name : String) {v : Json} {r : Nat → Reader Term} {P : Nat → Prop} {t : Term}
    (hkind : ∀ depth input, kind depth (within depth) (within (depth - 1))
      (bytes (quote name) ++ 0x3A :: input) = r depth input)
    (h : ∀ depth, Takes (r depth) v (P depth) t) (depth : Nat) :
    Takes (within depth) (.object [(name, v)]) (2 ≤ depth ∧ P (depth - 2)) t := by
  intro pad level rest hpad hrest
  have hblank : Blank [0x20] := List.forall_mem_singleton.2 rfl
  rw [written_object, List.map_cons, List.map_nil, enclosedParts, chained, writtenMember_append]
  rcases depth with _ | _ | depth
  · exact .of_error rfl (by omega)
  · have hclosed : ∀ input, within 1 (pad ++ 0x7B :: input) = .error .malformed := by
      intro input
      rw [within, reader, enclosed, bind_of_ok (next_spaced hpad (by decide) input)]
      rfl
    exact .of_error (hclosed _) (by omega)
  · rw [within, reader_succ, enclosed]
    refine .after (next_spaced hpad (by decide) _) ?_
    rw [if_pos rfl]
    refine .after (drop_cons _ _) ?_
    have hvalue := @h depth [0x20] (level + 1) (indent level ++ 0x7D :: rest) hblank (.inr rfl)
    have hinside : Settles (kind depth (within depth) (within (depth - 1)))
        (indent (level + 1) ++ (bytes (quote name) ++
          0x3A :: 0x20 :: (v.written (level + 1) ++ (indent level ++ 0x7D :: rest))))
        (P depth) t (indent level ++ 0x7D :: rest) := by
      have hrun : kind depth (within depth) (within (depth - 1)) (indent (level + 1) ++
          (bytes (quote name) ++ 0x3A :: 0x20 ::
            (v.written (level + 1) ++ (indent level ++ 0x7D :: rest)))) =
          r depth ([0x20] ++ (v.written (level + 1) ++ (indent level ++ 0x7D :: rest))) := by
        rw [kind_of_blank (blank_indent _), hkind]
        rfl
      exact ⟨fun hp => hrun.trans (hvalue.ok hp), fun hp => hrun ▸ hvalue.error hp⟩
    refine (hinside.followed ?_).congr ?_
    · rw [bind_of_ok (mark_spaced (blank_indent level) (by decide) rest)]
      rfl
    · simp

theorem takes_numbered {room : Bool} {number : String} {default : Float} {sub : Reader Term}
    {t : Term} {x : Float} {P : Prop} (hname : number ≠ "term") (hsub : Takes sub t.toJson P t)
    (hx : x.isFinite = true → ReadsBack x) :
    Takes (numbered room number default sub)
      (.object [("term", t.toJson), (number, .ofFloat x)])
      (room = true ∧ P ∧ x.isFinite = true) (t, x) := by
  have hterm : Enters (takeField (numberedFields number sub)) ⟨none, none⟩ ("term", t.toJson) P
      ⟨some t, none⟩ :=
    enters_field rfl rfl (hsub.followed fun _ => rfl)
  have hfind : ((numberedFields number sub).find? fun field => field.name = number) =
      some ⟨number, fun s => s.number.isSome, fun s => do
        let v ← Reader.float
        pure { s with number := some v }⟩ := by
    simp [numberedFields, hname.symm]
  have hnumber : Enters (takeField (numberedFields number sub)) ⟨some t, none⟩ (number, .ofFloat x)
      (x.isFinite = true) ⟨some t, some x⟩ :=
    enters_field hfind rfl ((takes_float hx).followed fun _ => rfl)
  refine ((takes_record room (.cons hterm (.cons hnumber (.nil _)))).followed fun _ => rfl).congr ?_
  rw [and_true]

theorem takes_repetition {room : Bool} {sub : Reader Term} {t : Term} {P : Prop}
    (hsub : Takes sub t.toJson P t) (b : Bounds) :
    Takes (repetitionReader room sub) (.object (("term", t.toJson) :: b.members))
      (room = true ∧ P) (repetition t b) := by
  have hterm : Enters (takeField (repetitionFields sub)) ⟨none, none, none, none⟩
      ("term", t.toJson) P ⟨some t, none, none, none⟩ :=
    enters_field rfl rfl (hsub.followed fun _ => rfl)
  have hleast : Enters (takeField (repetitionFields sub)) ⟨some t, none, none, none⟩
      ("min", .ofNat b.least.toNat) True ⟨some t, some b.least, none, none⟩ :=
    enters_field rfl rfl ((takes_count b.least).followed fun _ => rfl)
  have hmost : ∀ n : UInt32, Enters (takeField (repetitionFields sub))
      ⟨some t, some b.least, none, none⟩ ("max", .ofNat n.toNat) True
      ⟨some t, some b.least, some (some n), none⟩ :=
    fun n => enters_field rfl rfl ((takes_someCount n).followed fun _ => rfl)
  have hexpected : ∀ (most : Option (Option UInt32)) (n : UInt32),
      Enters (takeField (repetitionFields sub)) ⟨some t, some b.least, most, none⟩
        ("norm", .ofNat n.toNat) True ⟨some t, some b.least, most, some (some n)⟩ :=
    fun most n => enters_field rfl rfl ((takes_someCount n).followed fun _ => rfl)
  obtain ⟨least, most, expected⟩ := b
  -- the limits are left out one by one where there are none
  cases most with
  | none =>
    cases expected with
    | none =>
      have h := takes_record room (.cons hterm (.cons hleast (.nil _)))
      exact (h.followed fun _ => rfl).congr (by simp)
    | some norm =>
      have h := takes_record room (.cons hterm (.cons hleast (.cons (hexpected none norm) (.nil _))))
      exact (h.followed fun _ => rfl).congr (by simp)
  | some most =>
    cases expected with
    | none =>
      have h := takes_record room (.cons hterm (.cons hleast (.cons (hmost most) (.nil _))))
      exact (h.followed fun _ => rfl).congr (by simp)
    | some norm =>
      have h := takes_record room (.cons hterm (.cons hleast (.cons (hmost most)
        (.cons (hexpected (some (some most)) norm) (.nil _)))))
      exact (h.followed fun _ => rfl).congr (by simp)

end Term

namespace CharacterSet

theorem height_le_iff {set : CharacterSet} {depth : Nat} :
    set.toJson.height ≤ depth ↔ 0 < depth ∧ (set.exclusions ≠ [] → 1 < depth) := by
  obtain ⟨name, exclusions⟩ := set
  cases exclusions with
  | nil =>
    have hheight : (toJson ⟨name, []⟩).height = 1 := rfl
    rw [hheight]
    exact ⟨fun h => ⟨h, fun hne => absurd rfl hne⟩, And.left⟩
  | cons c exclusions =>
    have hstrings : ∀ cs : List Char,
        heightItems (cs.map fun c => .string (String.singleton c)) = 0 := by
      intro cs
      induction cs with
      | nil => rfl
      | cons c cs ih => rw [List.map_cons, heightItems, ih, height, Nat.max_self]
    have hheight : (toJson ⟨name, c :: exclusions⟩).height = max 0 (max (heightItems
        ((c :: exclusions).map fun c => .string (String.singleton c)) + 1) 0) + 1 := rfl
    rw [hheight, hstrings]
    constructor
    · intro h
      exact ⟨by omega, fun _ => by omega⟩
    · rintro ⟨-, h⟩
      have := h (List.cons_ne_nil _ _)
      omega

theorem takes (depth : Nat) (set : CharacterSet) :
    Takes (CharacterSet.reader depth) set.toJson (set.toJson.height ≤ depth) set := by
  have hname : Enters (takeField (fields (1 < depth))) ⟨none, none⟩ ("set", .string set.name) True
      ⟨some set.name, none⟩ :=
    enters_field rfl rfl ((takes_string set.name).followed fun _ => rfl)
  rw [height_le_iff]
  obtain ⟨name, exclusions⟩ := set
  cases exclusions with
  | nil =>
    have h := takes_record (0 < depth) (.cons hname (.nil _))
    exact (h.followed fun _ => rfl).congr (by simp)
  | cons c exclusions =>
    have hlist : Takes (Reader.list (1 < depth) Reader.character)
        (.array ((c :: exclusions).map fun c => .string (String.singleton c)))
        (decide (1 < depth) = true ∧ ∀ d ∈ c :: exclusions, True)
        ((c :: exclusions).map fun c => c) :=
      takes_list (1 < depth) (fun c _ => takes_character c) (fun c _ => opens_string _)
    rw [List.map_id'] at hlist
    have hexclusions : Enters (takeField (fields (1 < depth))) ⟨some name, none⟩
        ("exclusions", .array ((c :: exclusions).map fun c => .string (String.singleton c)))
        (decide (1 < depth) = true ∧ ∀ d ∈ c :: exclusions, True)
        ⟨some name, some (c :: exclusions)⟩ :=
      enters_field rfl rfl (hlist.followed fun _ => rfl)
    have h := takes_record (0 < depth) (.cons hname (.cons hexclusions (.nil _)))
    exact (h.followed fun _ => rfl).congr (by simp)

end CharacterSet

namespace Term

theorem opens (t : Term) : Opens t.toJson := by
  cases t with
  | epsilon => exact opens_string _
  | literal | sequence | alternatives | reference | optional | repetition | characters =>
    rw [toJson]
    exact opens_object _

theorem takes_epsilon (depth : Nat) :
    Takes (within depth) (.string "epsilon") (0 < depth) epsilon := by
  intro pad level rest hpad hrest
  cases depth with
  | zero => exact .of_error rfl (Nat.lt_irrefl 0)
  | succ depth =>
    obtain ⟨inside, hreader⟩ : ∃ inside, within (depth + 1) = enclosed inside := by
      match depth with
      | 0 | 1 | 2 | depth + 3 => exact ⟨_, by simp only [within, reader]; rfl⟩
    obtain ⟨more, hmore⟩ := exists_quote "epsilon"
    have hquoted := quoted_quote "epsilon" rest
    rw [hreader, enclosed.eq_def, written_string]
    rw [hmore, List.cons_append] at hquoted ⊢
    refine (Settles.of_ok ?_).congr (iff_of_true trivial (Nat.succ_pos depth))
    rw [bind_of_ok (next_spaced hpad (by decide) _), if_neg (by decide), if_pos rfl,
      bind_of_ok hquoted]
    rfl

/-- Room for an item of a list, or for the list if it is empty. -/
theorem height_sequence_lt {ts : List Term} {depth : Nat} : (sequence ts).toJson.height < depth ↔
    2 ≤ depth ∧ 0 < depth - 2 ∧ ∀ t ∈ ts, t.toJson.height < depth - 2 := by
  have hheight : (sequence ts).toJson.height = max (heightItems (toJsonAll ts) + 1) 0 + 1 := rfl
  have hlt : heightItems (toJsonAll ts) < depth - 2 ↔ _ := heightItems_lt
  rw [toJsonAll_eq_map, List.forall_mem_map] at hlt
  rw [hheight, ← hlt, toJsonAll_eq_map]
  omega

theorem height_choice (c : Choice) : (choiceJson c).height = c.item.toJson.height + 1 := by
  simp only [choiceJson, height, heightMembers, height_ofFloat]
  omega

theorem height_alternatives_lt {options : List Choice} {depth : Nat} :
    (alternatives options).toJson.height < depth ↔ 2 ≤ depth ∧ 0 < depth - 2 ∧
      ∀ c ∈ options, 1 < depth - 2 ∧ c.item.toJson.height < depth - 3 := by
  have hheight : (alternatives options).toJson.height =
      max (heightItems (toJsonChoices options) + 1) 0 + 1 := rfl
  have hlt : heightItems (toJsonChoices options) < depth - 2 ↔ _ := heightItems_lt
  rw [toJsonChoices_eq_map, List.forall_mem_map] at hlt
  have hchoice : ∀ c ∈ options, ((choiceJson c).height < depth - 2 ↔
      1 < depth - 2 ∧ c.item.toJson.height < depth - 3) := by
    intro c _
    rw [height_choice]
    omega
  rw [hheight, ← forall₂_congr hchoice, ← hlt, toJsonChoices_eq_map]
  omega

theorem height_optional (t : Term) (p : Float) :
    (optional t p).toJson.height = t.toJson.height + 2 := by
  simp only [toJson, height, heightMembers, height_ofFloat]
  omega

theorem height_repetition (t : Term) (b : Bounds) :
    (repetition t b).toJson.height = t.toJson.height + 2 := by
  have hmembers : heightMembers b.members = 0 := by
    obtain ⟨least, _ | most, _ | expected⟩ := b <;> rfl
  simp only [toJson, height, heightMembers, hmembers]
  omega

mutual

/-- A term is taken if there is room for its brackets and all its numbers are finite. -/
theorem takes (t : Term) (h : t.All fun x => x.isFinite = true → ReadsBack x) (depth : Nat) :
    Takes (within depth) t.toJson
      (t.toJson.height < depth ∧ t.All fun x => x.isFinite = true) t :=
  match t, h with
  | literal text, _ => by
    have hall : (literal text).All fun x => x.isFinite = true := all_leaf rfl rfl
    have hr := takes_tagged "literal" (fun _ _ => by rw [kind, bind_of_ok (name_quote _ _)]; rfl)
      (fun _ => (takes_string text).map literal) depth
    refine hr.congr ?_
    change _ ↔ 1 < depth ∧ _
    simp [hall]
    omega
  | reference production, _ => by
    have hall : (reference production).All fun x => x.isFinite = true := all_leaf rfl rfl
    have hr := takes_tagged "non_terminal"
      (fun _ _ => by rw [kind, bind_of_ok (name_quote _ _)]; rfl)
      (fun _ => (takes_string production).map reference) depth
    refine hr.congr ?_
    change _ ↔ 1 < depth ∧ _
    simp [hall]
    omega
  | epsilon, _ => by
    have hall : epsilon.All fun x => x.isFinite = true := all_leaf rfl rfl
    refine (takes_epsilon depth).congr ?_
    change _ ↔ 0 < depth ∧ _
    simp [hall]
  | characters set, _ => by
    have hall : (characters set).All fun x => x.isFinite = true := all_leaf rfl rfl
    have hr := takes_tagged "characters" (fun _ _ => by rw [kind, bind_of_ok (name_quote _ _)]; rfl)
      (fun depth => (CharacterSet.takes depth set).map characters) depth
    refine hr.congr ?_
    change _ ↔ max set.toJson.height 0 + 1 < depth ∧ _
    simp [hall]
    omega
  | sequence ts, h => by
    have hitems := takesAll ts (all_sequence.1 h)
    have hr := takes_tagged "sequence" (fun _ _ => by rw [kind, bind_of_ok (name_quote _ _)]; rfl)
      (fun depth => (takes_list (0 < depth) (fun t ht => hitems t ht depth)
        fun t _ => t.opens).map sequence) depth
    have hjson : (sequence ts).toJson = .object [("sequence", .array (ts.map toJson))] := by
      rw [toJson, toJsonAll_eq_map]
    rw [List.map_id'] at hr
    rw [height_sequence_lt, all_sequence, hjson]
    refine hr.congr ?_
    simp only [decide_eq_true_eq, imp_and, forall_and, and_assoc]
  | alternatives options, h => by
    have hchoices := takesChoices options (all_alternatives.1 h)
    have hr := takes_tagged "alternatives"
      (fun _ _ => by rw [kind, bind_of_ok (name_quote _ _)]; rfl)
      (fun depth => (takes_list (0 < depth) (fun c hc => hchoices c hc depth)
        fun c _ => opens_object _).map fun options =>
          alternatives (options.map fun (t, w) => ⟨t, w⟩)) depth
    have hjson : (alternatives options).toJson =
        .object [("alternatives", .array (options.map choiceJson))] := by
      rw [toJson, toJsonChoices_eq_map]
    have hmap : (options.map fun c => (c.item, c.weight)).map
        (fun (t, w) => (⟨t, w⟩ : Choice)) = options := by
      rw [List.map_map]
      exact List.map_id' options
    rw [hmap] at hr
    rw [height_alternatives_lt, all_alternatives, hjson]
    refine hr.congr ?_
    simp only [decide_eq_true_eq, imp_and, forall_and, and_assoc, Nat.sub_sub]
  | optional t x, h => by
    obtain ⟨ht, hx⟩ := all_optional.1 h
    have hr := takes_tagged "optional" (fun _ _ => by rw [kind, bind_of_ok (name_quote _ _)]; rfl)
      (fun depth => (takes_numbered (by decide) (takes t ht depth) hx).map
        fun (t, p) => optional t p) depth
    have hroom : t.toJson.height + 2 < depth ↔
        2 ≤ depth ∧ 0 < depth - 2 ∧ t.toJson.height < depth - 2 := by omega
    rw [height_optional, hroom, all_optional, toJson]
    refine hr.congr ?_
    simp only [decide_eq_true_eq, and_assoc]
  | repetition t b, h => by
    have hr := takes_tagged "repetition" (fun _ _ => by rw [kind, bind_of_ok (name_quote _ _)]; rfl)
      (fun depth => takes_repetition (takes t (all_repetition.1 h) depth) b) depth
    have hroom : t.toJson.height + 2 < depth ↔
        2 ≤ depth ∧ 0 < depth - 2 ∧ t.toJson.height < depth - 2 := by omega
    rw [height_repetition, hroom, all_repetition, toJson]
    refine hr.congr ?_
    simp only [decide_eq_true_eq, and_assoc]

/-- An alternative is read behind one bracket more than the terms of a sequence. -/
theorem takesChoices (options : List Choice) (h : ∀ c ∈ options,
      (c.item.All fun x => x.isFinite = true → ReadsBack x) ∧
        (c.weight.isFinite = true → ReadsBack c.weight)) :
    ∀ c ∈ options, ∀ depth, Takes (numbered (1 < depth) "bias" 1 (within (depth - 1)))
      (choiceJson c) (decide (1 < depth) = true ∧ (c.item.toJson.height < depth - 1 ∧
        c.item.All fun x => x.isFinite = true) ∧ c.weight.isFinite = true) (c.item, c.weight) :=
  match options, h with
  | [], _ => nofun
  | ⟨t, w⟩ :: options, h => by
    obtain ⟨⟨ht, hw⟩, hoptions⟩ := List.forall_mem_cons.1 h
    refine List.forall_mem_cons.2 ⟨fun depth => ?_, takesChoices options hoptions⟩
    exact takes_numbered (by decide) (takes t ht (depth - 1)) hw

theorem takesAll (ts : List Term)
    (h : ∀ t ∈ ts, t.All fun x => x.isFinite = true → ReadsBack x) :
    ∀ t ∈ ts, ∀ depth, Takes (within depth) t.toJson
      (t.toJson.height < depth ∧ t.All fun x => x.isFinite = true) t :=
  match ts, h with
  | [], _ => nofun
  | t :: ts, h => by
    obtain ⟨ht, hts⟩ := List.forall_mem_cons.1 h
    exact List.forall_mem_cons.2 ⟨takes t ht, takesAll ts hts⟩

end

end Term

end Sentential
