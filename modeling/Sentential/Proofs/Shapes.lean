import Sentential.Proofs.Numbers
import Sentential.Proofs.Tokens

/-!
# Written lists and records

A list is taken when there is room for its bracket and all its items are taken. An object is taken
when there is room and each member is taken by what reads members of that name. The readers bound
the number of items by the number of bytes ahead, which is always enough.
-/
namespace Sentential.Json.Reader

open Text

variable {α σ ι : Type} {input mid after rest bound : Bytes} {level outer : Nat} {P Q : Prop}

/-- What stands behind a bracket is read if there is room for the bracket. -/
theorem settles_bracket {r : Bytes → Reader α} {b : UInt8} {v : α} (room : Bool)
    (h : Settles (r input) input P v rest) :
    Settles (if room then drop >>= fun _ => ahead >>= r else fail .malformed) (b :: input)
      (room = true ∧ P) v rest := by
  cases room with
  | false => exact .of_error rfl fun h => nomatch h.1
  | true =>
    rw [if_pos rfl]
    refine Settles.congr ?_ ⟨fun hp => ⟨rfl, hp⟩, And.right⟩
    exact .after (drop_cons b input) (.after (v := input) rfl h)

/-! ## Lists -/

/-- A value starts with a byte that neither is white space nor ends a list. -/
def Opens (j : Json) : Prop := ∀ level, ∃ b more,
  j.written level = b :: more ∧ isSpace b = false ∧ b ≠ 0x5D

theorem opens_string (text : String) : Opens (.string text) := by
  intro level
  obtain ⟨more, hmore⟩ := exists_quote text
  exact ⟨0x22, more, by rw [written_string, hmore], by decide, by decide⟩

theorem opens_object (ms : List (String × Json)) : Opens (.object ms) := by
  intro level
  have hobject := written_object level ms []
  rw [List.append_nil] at hobject
  exact ⟨0x7B, _, hobject, by decide, by decide⟩

theorem length_le_chained (level : Nat) (closing : Bytes) (xs : List Bytes) :
    xs.length + closing.length ≤ (chained level closing xs).length := by
  induction xs with
  | nil => simp [chained]
  | cons x xs ih =>
    simp only [chained, List.length_cons, List.length_append]
    omega

/-- Each part takes a byte, and so does the closing bracket. -/
theorem length_lt_enclosedParts (level : Nat) (close : UInt8) (rest : Bytes) (xs : List Bytes) :
    xs.length < (enclosedParts level close rest xs).length := by
  cases xs with
  | nil => simp [enclosedParts]
  | cons x xs =>
    have hle := length_le_chained (level + 1) (indent level ++ close :: rest) xs
    simp only [enclosedParts, indent, List.length_cons, List.length_append] at hle ⊢
    omega

theorem items_end {item : Reader α} {pad : Bytes} (hpad : Blank pad) (first : Bool)
    (hbound : bound ≠ []) : items item bound first (pad ++ 0x5D :: rest) = .ok ([], rest) := by
  cases bound with
  | nil => exact absurd rfl hbound
  | cons b bound =>
    have hanother : another first (pad ++ 0x5D :: rest) = .ok (false, 0x5D :: rest) := by
      rw [another, bind_of_ok (next_spaced hpad (by decide) rest), if_pos rfl]
      rfl
    rw [items, bind_of_ok hanother]
    rfl

theorem settles_items_cons {item : Reader α} {b : UInt8} {first : Bool} {v : α} {vs : List α}
    (hanother : another first input = .ok (true, mid)) (hitem : Settles item mid P v after)
    (hmore : Settles (items item bound false) after Q vs rest) :
    Settles (items item (b :: bound) first) input (P ∧ Q) (v :: vs) rest := by
  rw [items]
  refine .after hanother ?_
  exact hitem.bind (hmore.followed rfl)

section

variable {item : Reader α} {encode : ι → Json} {good : ι → Prop} {value : ι → α} {xs : List ι}

theorem settles_items (level outer : Nat) (rest : Bytes)
    (hitem : ∀ x ∈ xs, Takes item (encode x) (good x) (value x))
    (hopens : ∀ x ∈ xs, Opens (encode x)) (hbound : xs.length < bound.length) :
    Settles (items item bound false)
      (chained level (indent outer ++ 0x5D :: rest) (xs.map fun x => (encode x).written level))
      (∀ x ∈ xs, good x) (xs.map value) rest := by
  induction xs generalizing bound with
  | nil =>
    have hne : bound ≠ [] := List.ne_nil_of_length_pos hbound
    exact (Settles.of_ok (items_end (blank_indent outer) false hne)).congr (by simp)
  | cons x xs ih =>
    obtain ⟨hx, hxs⟩ := List.forall_mem_cons.1 hitem
    obtain ⟨hopen, hopens⟩ := List.forall_mem_cons.1 hopens
    obtain ⟨b, more, hwritten, hspace, hend⟩ := hopen level
    cases bound with
    | nil => cases hbound
    | cons c bound =>
      have hmore := ih hxs hopens (Nat.lt_of_succ_lt_succ hbound)
      have hfirst := @hx [] level _ blank_nil (delimited_chained outer level (0x5D :: rest)
        (xs.map fun x => (encode x).written level))
      rw [List.map_cons, List.map_cons, chained, List.forall_mem_cons]
      rw [hwritten, List.nil_append, List.cons_append] at hfirst
      rw [hwritten, List.cons_append]
      refine settles_items_cons ?_ hfirst hmore
      rw [another, bind_of_ok (next_cons (by decide) _), if_neg (by decide), if_neg (by decide),
        if_pos rfl, bind_of_ok (drop_cons _ _), bind_of_ok (next_spaced (blank_indent level) hspace _),
        if_neg hend]
      rfl

theorem settles_enclosedItems (hitem : ∀ x ∈ xs, Takes item (encode x) (good x) (value x))
    (hopens : ∀ x ∈ xs, Opens (encode x)) (hbound : xs.length < bound.length) :
    Settles (items item bound true)
      (enclosedParts level 0x5D rest (xs.map fun x => (encode x).written (level + 1)))
      (∀ x ∈ xs, good x) (xs.map value) rest := by
  cases xs with
  | nil =>
    have hne : bound ≠ [] := List.ne_nil_of_length_pos hbound
    exact (Settles.of_ok (items_end blank_nil true hne)).congr (by simp)
  | cons x xs =>
    obtain ⟨hx, hxs⟩ := List.forall_mem_cons.1 hitem
    obtain ⟨hopen, hopens⟩ := List.forall_mem_cons.1 hopens
    obtain ⟨b, more, hwritten, hspace, hend⟩ := hopen (level + 1)
    cases bound with
    | nil => cases hbound
    | cons c bound =>
      have hmore := settles_items (level + 1) level rest hxs hopens (Nat.lt_of_succ_lt_succ hbound)
      have hfirst := @hx [] (level + 1) _ blank_nil (delimited_chained level (level + 1)
        (0x5D :: rest) (xs.map fun x => (encode x).written (level + 1)))
      rw [List.map_cons, List.map_cons, enclosedParts, List.forall_mem_cons]
      rw [hwritten, List.nil_append, List.cons_append] at hfirst
      rw [hwritten, List.cons_append]
      refine settles_items_cons ?_ hfirst hmore
      rw [another, bind_of_ok (next_spaced (blank_indent _) hspace _), if_neg hend, if_pos rfl]
      rfl

theorem takes_list (room : Bool) (hitem : ∀ x ∈ xs, Takes item (encode x) (good x) (value x))
    (hopens : ∀ x ∈ xs, Opens (encode x)) :
    Takes (list room item) (.array (xs.map encode)) (room = true ∧ ∀ x ∈ xs, good x)
      (xs.map value) := by
  intro pad level rest hpad hrest
  have hbound := length_lt_enclosedParts level 0x5D rest
    (xs.map fun x => (encode x).written (level + 1))
  rw [List.length_map] at hbound
  rw [written_array, List.map_map, list]
  refine .after (next_spaced hpad (by decide) _) ?_
  rw [if_pos rfl]
  exact settles_bracket room (settles_enclosedItems hitem hopens hbound)

end

/-! ## Objects -/

variable {take : String → σ → Reader σ} {s t u : σ} {ms : List (String × Json)}

/-- What reads the members of a name takes a value of one, with its colon in front. -/
def Enters (take : String → σ → Reader σ) (s : σ) (m : String × Json) (P : Prop) (t : σ) : Prop :=
  ∀ ⦃level rest⦄, Delimited rest →
    Settles (take m.1 s) (0x3A :: 0x20 :: (m.2.written level ++ rest)) P t rest

/-- The members of an object are taken one after another. -/
inductive Fills (take : String → σ → Reader σ) : σ → List (String × Json) → Prop → σ → Prop where
  | nil (s : σ) : Fills take s [] True s
  | cons {s t u : σ} {m : String × Json} {ms : List (String × Json)} {P Q : Prop} :
      Enters take s m P t → Fills take t ms Q u → Fills take s (m :: ms) (P ∧ Q) u

theorem members_end {pad : Bytes} (hpad : Blank pad) (first : Bool) (s : σ) (hbound : bound ≠ []) :
    members take bound first s (pad ++ 0x7D :: rest) = .ok (s, rest) := by
  cases bound with
  | nil => exact absurd rfl hbound
  | cons b bound =>
    have hanother : anotherMember first (pad ++ 0x7D :: rest) = .ok (false, 0x7D :: rest) := by
      rw [anotherMember, bind_of_ok (next_spaced hpad (by decide) rest), if_pos rfl]
      rfl
    rw [members, bind_of_ok hanother]
    rfl

theorem settles_members_cons (level : Nat) {b : UInt8} {first : Bool} {m : String × Json}
    (hanother : anotherMember first input =
      .ok (true, bytes (quote m.1) ++ 0x3A :: 0x20 :: (m.2.written level ++ after)))
    (hafter : Delimited after) (hmember : Enters take s m P t)
    (hmore : Settles (members take bound false t) after Q u rest) :
    Settles (members take (b :: bound) first s) input (P ∧ Q) u rest := by
  rw [members]
  refine .after hanother (.after (quoted_quote m.1 _) ?_)
  exact (hmember hafter).bind hmore

theorem writtenMember_append (m : String × Json) (rest : Bytes) :
    writtenMember level m ++ rest =
      bytes (quote m.1) ++ 0x3A :: 0x20 :: (m.2.written level ++ rest) := by
  rw [writtenMember, List.append_assoc, List.cons_append, List.cons_append]

theorem settles_members (h : Fills take s ms P t) (hbound : ms.length < bound.length) :
    Settles (members take bound false s)
      (chained level (indent outer ++ 0x7D :: rest) (ms.map (writtenMember level))) P t rest := by
  induction h generalizing bound with
  | nil s => exact .of_ok (members_end (blank_indent outer) false s (List.ne_nil_of_length_pos hbound))
  | @cons s t u m ms P Q hmember _ ih =>
    obtain ⟨more, hmore⟩ := exists_quote m.1
    cases bound with
    | nil => cases hbound
    | cons c bound =>
      rw [List.map_cons, chained, writtenMember_append]
      refine settles_members_cons level ?_ (delimited_chained outer level _ _) hmember
        (ih (Nat.lt_of_succ_lt_succ hbound))
      rw [hmore, List.cons_append, anotherMember, bind_of_ok (next_cons (by decide) _),
        if_neg (by decide), if_neg (by decide), if_pos rfl, bind_of_ok (drop_cons _ _),
        bind_of_ok (next_spaced (blank_indent level) (by decide) _), if_pos rfl]
      rfl

theorem settles_enclosedMembers (h : Fills take s ms P t) (hbound : ms.length < bound.length) :
    Settles (members take bound true s)
      (enclosedParts level 0x7D rest (ms.map (writtenMember (level + 1)))) P t rest := by
  cases h with
  | nil => exact .of_ok (members_end blank_nil true s (List.ne_nil_of_length_pos hbound))
  | @cons _ t u m ms P Q hmember hmembers =>
    obtain ⟨more, hmore⟩ := exists_quote m.1
    cases bound with
    | nil => cases hbound
    | cons c bound =>
      rw [List.map_cons, enclosedParts, writtenMember_append]
      refine settles_members_cons (level + 1) ?_ (delimited_chained level (level + 1) _ _) hmember
        (settles_members hmembers (Nat.lt_of_succ_lt_succ hbound))
      rw [hmore, List.cons_append, anotherMember,
        bind_of_ok (next_spaced (blank_indent _) (by decide) _), if_neg (by decide), if_pos rfl,
        if_pos rfl]
      rfl

theorem takes_object (room : Bool) (h : Fills take s ms P t) :
    Takes (object room take s) (.object ms) (room = true ∧ P) t := by
  intro pad level rest hpad hrest
  have hbound := length_lt_enclosedParts level 0x7D rest
    (ms.map (writtenMember (level + 1)))
  rw [List.length_map] at hbound
  rw [written_object, object]
  refine .after (next_spaced hpad (by decide) _) ?_
  rw [if_pos rfl]
  exact settles_bracket room (settles_enclosedMembers h hbound)

/-! ## Records -/

variable {fields : List (Slot σ)}

/-- A record that is written as an object. -/
theorem takes_record (room : Bool) (h : Fills (takeField fields) s ms P t) :
    Takes (record room fields s) (.object ms) (room = true ∧ P) t := by
  intro pad level rest hpad hrest
  have hbound := length_lt_enclosedParts level 0x7D rest
    (ms.map (writtenMember (level + 1)))
  rw [List.length_map] at hbound
  rw [written_object, record]
  refine .after (next_spaced hpad (by decide) _) ?_
  rw [if_pos (.inl rfl)]
  exact settles_bracket room (settles_enclosedMembers h hbound)

theorem enters_field {name : String} {v : Json} {field : Slot σ}
    (hfind : (fields.find? fun field => field.name = name) = some field)
    (hgiven : field.given s = false) (h : Takes (field.read s) v P t) :
    Enters (takeField fields) s (name, v) P t := by
  intro level rest hrest
  have hblank : Blank [0x20] := List.forall_mem_singleton.2 rfl
  simp only [takeField, hfind, hgiven]
  exact .after (mark_spaced blank_nil (by decide) _) (h hblank hrest)

end Sentential.Json.Reader
