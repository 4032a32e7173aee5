import Mathlib.Data.List.Chain
import Sentential.Proofs.Growth

/-!
# Trees in their places

A tree keeps its place in a document, which is the list of positions that leads there. What is done
to the children of a tree is said once, as a function on children from left to right; when that only
concerns what comes behind the last tree or deferred node, it can change places with what is done to
another tree, above, below or beside it.
-/
namespace Sentential

variable {ρ : Type}

namespace Node

/-- The children of the tree at a place, if there is a tree. -/
def childrenAt? : List Nat → Node ρ → Option (List (Node ρ))
  | [], tree _ children => some children
  | i :: is, tree _ children => children[i]?.bind (childrenAt? is)
  | _, _ => none

/-- Does something to the children of the tree at a place. -/
def alterAt (change : List (Node ρ) → List (Node ρ)) : List Nat → Node ρ → Node ρ
  | [], tree name children => tree name (change children)
  | i :: is, tree name children => tree name (children.modify i (alterAt change is))
  | _, n => n

/-- What is in front of a tree or a deferred node, and that node itself, does not matter. -/
def Steady (change : List (Node ρ) → List (Node ρ)) : Prop :=
  ∀ {n : Node ρ} (before after : List (Node ρ)), n.text? = none →
    change (before ++ n :: after) = before ++ n :: change after

variable {change other : List (Node ρ) → List (Node ρ)} {n : Node ρ} {p q : List Nat}
  {children : List (Node ρ)}

@[simp] theorem alterAt_text? (change : List (Node ρ) → List (Node ρ)) (p : List Nat)
    (n : Node ρ) : (alterAt change p n).text? = n.text? := by
  cases p <;> cases n <;> rfl

theorem text?_of_childrenAt? (h : childrenAt? p n = some children) : n.text? = none := by
  cases n with
  | literal text => cases p <;> cases h
  | tree name children => rfl
  | deferred name payload => rfl

theorem alterAt_tree (name : String) (before : List (Node ρ)) (n : Node ρ) (after : List (Node ρ))
    (p : List Nat) : alterAt change (before.length :: p) (tree name (before ++ n :: after)) =
      tree name (before ++ alterAt change p n :: after) := by
  simp [alterAt, List.modify_eq_take_cons_drop]

theorem exists_of_getElem? {i : Nat} (h : children[i]? = some n) :
    ∃ before after, children = before ++ n :: after ∧ before.length = i := by
  obtain ⟨hi, rfl⟩ := List.getElem?_eq_some_iff.1 h
  exact ⟨children.take i, children.drop (i + 1), by simp, by simp [Nat.le_of_lt hi]⟩

/-- A tree that is not the whole document lies below a child. -/
theorem exists_of_childrenAt?_cons {i : Nat} (h : childrenAt? (i :: p) n = some children) :
    ∃ name before child after, n = tree name (before ++ child :: after) ∧ before.length = i ∧
      childrenAt? p child = some children := by
  cases n with
  | literal text => cases h
  | deferred name payload => cases h
  | tree name siblings =>
    obtain ⟨child, hget, hchild⟩ := Option.bind_eq_some_iff.1 h
    obtain ⟨before, after, rfl, rfl⟩ := exists_of_getElem? hget
    exact ⟨name, before, child, after, rfl, rfl, hchild⟩

/-- What is done to a tree twice is done to its children one after the other. -/
theorem alterAt_alterAt (change other : List (Node ρ) → List (Node ρ)) (p : List Nat)
    (n : Node ρ) : alterAt other p (alterAt change p n) =
      alterAt (fun children => other (change children)) p n := by
  induction p generalizing n with
  | nil => cases n <;> rfl
  | cons i is ih =>
    cases n with
    | literal text => rfl
    | deferred name payload => rfl
    | tree name children =>
      have hcomp : alterAt other is ∘ alterAt change is =
          alterAt (fun children => other (change children)) is := by
        funext child
        exact ih child
      simp only [alterAt, List.modify_modify_eq, hcomp]

theorem childrenAt?_alterAt (change : List (Node ρ) → List (Node ρ)) (p : List Nat) (n : Node ρ) :
    childrenAt? p (alterAt change p n) = (childrenAt? p n).map change := by
  induction p generalizing n with
  | nil => cases n <;> rfl
  | cons i is ih =>
    cases n with
    | literal text => rfl
    | deferred name payload => rfl
    | tree name children =>
      simp only [alterAt, childrenAt?, List.getElem?_modify_eq]
      cases children[i]? with
      | none => rfl
      | some child => exact ih child

/-- A tree has as many children as before when something is done to another one. -/
theorem childrenAt?_alterAt_of_ne (hchange : Steady change) (hpq : p ≠ q)
    (hq : childrenAt? q n = some children) :
    ∃ later, childrenAt? q (alterAt change p n) = some later ∧
      later.length = children.length := by
  induction q generalizing p n with
  | nil =>
    cases n with
    | literal text => cases hq
    | deferred name payload => cases hq
    | tree name siblings =>
      cases hq
      cases p with
      | nil => exact absurd rfl hpq
      | cons i is => exact ⟨_, rfl, List.length_modify _ _ _⟩
  | cons j js ih =>
    obtain ⟨name, before, child, after, rfl, rfl, hchild⟩ := exists_of_childrenAt?_cons hq
    cases p with
    | nil =>
      rw [alterAt, hchange before after (text?_of_childrenAt? hchild)]
      exact ⟨children, by simp [childrenAt?, hchild], rfl⟩
    | cons i is =>
      by_cases hi : i = before.length
      · subst hi
        have hne : is ≠ js := by
          intro his
          exact hpq (by rw [his])
        obtain ⟨later, hlater, hlength⟩ := ih hne hchild
        rw [alterAt_tree]
        exact ⟨later, by simp [childrenAt?, hlater], hlength⟩
      · refine ⟨children, ?_, rfl⟩
        simp [alterAt, childrenAt?, hi, hchild]

/-- No tree is lost. -/
theorem childrenAt?_alterAt_isSome (hchange : Steady change) (p : List Nat)
    (hq : (childrenAt? q n).isSome) : (childrenAt? q (alterAt change p n)).isSome := by
  by_cases hpq : p = q
  · rw [hpq, childrenAt?_alterAt, Option.isSome_map]
    exact hq
  · obtain ⟨children, hq⟩ := Option.isSome_iff_exists.1 hq
    obtain ⟨later, hlater, -⟩ := childrenAt?_alterAt_of_ne hchange hpq hq
    exact Option.isSome_of_eq_some hlater

theorem alterAt_root_comm (hchange : Steady change) (hne : q ≠ [])
    (hq : childrenAt? q n = some children) :
    alterAt other q (alterAt change [] n) = alterAt change [] (alterAt other q n) := by
  cases q with
  | nil => exact absurd rfl hne
  | cons j js =>
    obtain ⟨name, before, child, after, rfl, rfl, hchild⟩ := exists_of_childrenAt?_cons hq
    have htext := text?_of_childrenAt? hchild
    have htext' : (alterAt other js child).text? = none := by rw [alterAt_text?, htext]
    rw [alterAt_tree, alterAt, alterAt, hchange before after htext, hchange before after htext',
      alterAt_tree]

theorem alterAt_comm (hchange : Steady change) (hother : Steady other) (hpq : p ≠ q)
    (hp : (childrenAt? p n).isSome) (hq : (childrenAt? q n).isSome) :
    alterAt other q (alterAt change p n) = alterAt change p (alterAt other q n) := by
  induction p generalizing q n with
  | nil =>
    obtain ⟨children, hq⟩ := Option.isSome_iff_exists.1 hq
    exact alterAt_root_comm hchange hpq.symm hq
  | cons i is ih =>
    obtain ⟨grandchildren, hp⟩ := Option.isSome_iff_exists.1 hp
    cases q with
    | nil => exact (alterAt_root_comm hother hpq hp).symm
    | cons j js =>
      obtain ⟨name, before, child, after, rfl, rfl, hchild⟩ := exists_of_childrenAt?_cons hp
      by_cases hj : before.length = j
      · subst hj
        have hne : is ≠ js := by
          intro his
          exact hpq (by rw [his])
        have hq : (childrenAt? js child).isSome := by simpa [childrenAt?] using hq
        simp only [alterAt_tree]
        rw [ih hne (Option.isSome_of_eq_some hchild) hq]
      · simp only [alterAt]
        rw [List.modify_modify_ne _ _ _ hj]

theorem alterAt_id (p : List Nat) (n : Node ρ) : alterAt (fun children => children) p n = n := by
  induction p generalizing n with
  | nil => cases n <;> rfl
  | cons i is ih =>
    cases n with
    | literal text => rfl
    | deferred name payload => rfl
    | tree name children =>
      have hid : alterAt (fun children : List (Node ρ) => children) is = id := by
        funext child
        exact ih child
      rw [alterAt, hid, List.modify_id]

theorem childrenAt?_concat (h : childrenAt? p n = some children) (i : Nat) :
    childrenAt? (p ++ [i]) n = children[i]?.bind (childrenAt? []) := by
  induction p generalizing n with
  | nil =>
    cases n with
    | tree name siblings =>
      cases h
      rfl
    | literal text => cases h
    | deferred name payload => cases h
  | cons j js ih =>
    obtain ⟨name, before, child, after, rfl, rfl, hchild⟩ := exists_of_childrenAt?_cons h
    simpa [childrenAt?] using ih hchild

/-! What additions do to the children of a tree. -/

/-- Adds a node behind the children of a tree; text extends text. -/
def adding (n : Node ρ) (children : List (Node ρ)) : List (Node ρ) :=
  (Cursor.addLatest children.reverse n).reverse

theorem addLatest_append {m : Node ρ} (h : m.text? = none) (n : Node ρ)
    (later rest : List (Node ρ)) :
    Cursor.addLatest (later ++ m :: rest) n = Cursor.addLatest later n ++ m :: rest := by
  cases n with
  | tree name children => rfl
  | deferred name payload => rfl
  | literal text =>
    by_cases htext : text.isEmpty
    · simp [Cursor.addLatest, htext]
    · cases later with
      | nil => cases m <;> simp_all [Cursor.addLatest, extendLatest, text?]
      | cons k later => cases k <;> simp [Cursor.addLatest, extendLatest, htext]

theorem adding_steady (n : Node ρ) : Steady (adding n) := by
  intro m before after h
  simp [adding, addLatest_append h]

theorem adding_tree (name : String) (children : List (Node ρ)) :
    adding (tree name []) children = children ++ [tree name []] := by
  simp [adding, Cursor.addLatest]

theorem adding_empty (children : List (Node ρ)) : adding (literal "") children = children := by
  simp [adding, Cursor.addLatest]

theorem adding_adding (s t : String) (children : List (Node ρ)) :
    adding (literal t) (adding (literal s) children) = adding (literal (s ++ t)) children := by
  by_cases hs : s = ""
  · subst hs
    rw [adding_empty, String.empty_append]
  · by_cases ht : t = ""
    · subst ht
      rw [adding_empty, String.append_empty]
    · simp [adding, Cursor.addLatest, hs, ht, extendLatest_extendLatest]

/-! Documents without empty texts or neighbouring ones. -/

/-- No child is an empty text, and of two neighbours at most one is a text. -/
structure Separated (children : List (Node ρ)) : Prop where
  filled : literal "" ∉ children
  apart : children.IsChain fun m n => m.isLiteral = false ∨ n.isLiteral = false

/-- The children of every tree are separated. -/
inductive Tidy : Node ρ → Prop
  | literal (text : String) : Tidy (.literal text)
  | deferred (name : String) (payload : ρ) : Tidy (.deferred name payload)
  | tree (name : String) {children : List (Node ρ)} (separated : Separated children)
      (inside : ∀ n ∈ children, n.Tidy) : Tidy (.tree name children)

theorem Separated.reverse (h : Separated children) : Separated children.reverse := by
  refine ⟨fun hmem => h.filled (List.mem_reverse.1 hmem), ?_⟩
  apply List.isChain_reverse.2
  exact h.apart.imp fun m n hmn => hmn.symm

/-- Whether children are separated only depends on which of them are what text. -/
theorem Separated.of_texts {later : List (Node ρ)} (h : Separated children)
    (htexts : later.map text? = children.map text?) : Separated later := by
  have htext : ∀ n : Node ρ, n = literal "" ↔ n.text? = some "" := by
    intro n
    cases n <;> simp [text?]
  have hliteral : ∀ n : Node ρ, n.isLiteral = false ↔ n.text? = none := by
    intro n
    cases n <;> simp [text?, isLiteral]
  have hfilled : ∀ nodes : List (Node ρ), literal "" ∈ nodes ↔ some "" ∈ nodes.map text? := by
    intro nodes
    simp only [List.mem_map, ← htext, exists_eq_right]
  obtain ⟨filled, apart⟩ := h
  refine ⟨?_, ?_⟩
  · rw [hfilled, htexts, ← hfilled]
    exact filled
  · simp only [hliteral] at apart ⊢
    rw [← List.isChain_map (R := fun s t : Option String => s = none ∨ t = none)] at apart ⊢
    rwa [htexts]

theorem Separated.cons (h : Separated children) (hn : n.isLiteral = false) :
    Separated (n :: children) := by
  constructor
  · intro hmem
    rcases List.mem_cons.1 hmem with rfl | hmem
    · cases hn
    · exact h.filled hmem
  · cases children with
    | nil => exact .singleton n
    | cons m rest => exact List.isChain_cons_cons.2 ⟨.inl hn, h.apart⟩

theorem empty_notMem_cons {text : String} (htext : text ≠ "") (h : literal "" ∉ children) :
    literal "" ∉ literal text :: children := by
  intro hmem
  rcases List.mem_cons.1 hmem with heq | hmem
  · exact htext (literal.inj heq).symm
  · exact h hmem

theorem Separated.extend (h : Separated children) {text : String} (htext : text ≠ "") :
    Separated (extendLatest text children) := by
  cases children with
  | nil => exact ⟨empty_notMem_cons htext List.not_mem_nil, .singleton _⟩
  | cons m rest =>
    cases m with
    | literal before =>
      have hrest : literal "" ∉ rest := fun hmem => h.filled (List.mem_cons_of_mem _ hmem)
      have hlonger : before ++ text ≠ "" := by
        intro hempty
        exact htext (String.append_eq_empty_iff.1 hempty).2
      refine ⟨empty_notMem_cons hlonger hrest, ?_⟩
      have hapart := h.apart
      cases rest with
      | nil => exact .singleton _
      | cons k rest => simpa [extendLatest, isLiteral] using hapart
    | tree name inside =>
      exact ⟨empty_notMem_cons htext h.filled, List.isChain_cons_cons.2 ⟨.inr rfl, h.apart⟩⟩
    | deferred name payload =>
      exact ⟨empty_notMem_cons htext h.filled, List.isChain_cons_cons.2 ⟨.inr rfl, h.apart⟩⟩

theorem Separated.adding (h : Separated children) (n : Node ρ) : Separated (adding n children) := by
  have hlatest := h.reverse
  suffices hlater : Separated (Cursor.addLatest children.reverse n) from hlater.reverse
  cases n with
  | literal text =>
    by_cases htext : text = ""
    · simpa [Cursor.addLatest, htext] using hlatest
    · simpa [Cursor.addLatest, htext] using hlatest.extend htext
  | tree name inside => exact hlatest.cons rfl
  | deferred name payload => exact hlatest.cons rfl

theorem Tidy.of_childless (h : n.children = []) : n.Tidy := by
  cases n with
  | literal text => exact .literal text
  | deferred name payload => exact .deferred name payload
  | tree name inside =>
    cases h
    exact .tree name ⟨List.not_mem_nil, .nil⟩ nofun

/-- What is added without children is among the children, or text that some child goes on with. -/
theorem mem_adding {m : Node ρ} (hm : m.children = []) (h : n ∈ adding m children) :
    n ∈ children ∨ n.children = [] := by
  rw [adding, List.mem_reverse] at h
  suffices hlatest : n ∈ children.reverse ∨ n.children = [] from
    hlatest.imp_left List.mem_reverse.1
  generalize children.reverse = latest at h
  cases m with
  | tree name inside =>
    cases hm
    rcases List.mem_cons.1 h with rfl | h
    · exact .inr rfl
    · exact .inl h
  | deferred name payload =>
    rcases List.mem_cons.1 h with rfl | h
    · exact .inr rfl
    · exact .inl h
  | literal text =>
    by_cases htext : text = ""
    · exact .inl (by simpa [Cursor.addLatest, htext] using h)
    · simp only [Cursor.addLatest, String.isEmpty_iff, htext, if_false] at h
      unfold extendLatest at h
      split at h
      · rcases List.mem_cons.1 h with rfl | h
        · exact .inr rfl
        · exact .inl (List.mem_cons_of_mem _ h)
      · rcases List.mem_cons.1 h with rfl | h
        · exact .inr rfl
        · exact .inl h

/-- A document stays tidy when something without children is added to one of its trees. -/
theorem Tidy.alterAt (h : n.Tidy) {m : Node ρ} (hm : m.children = []) (p : List Nat) :
    (alterAt (Node.adding m) p n).Tidy := by
  induction p generalizing n with
  | nil =>
    cases h with
    | literal text => exact .literal text
    | deferred name payload => exact .deferred name payload
    | tree name separated inside =>
      refine .tree name (separated.adding m) fun k hk => ?_
      rcases mem_adding hm hk with hk | hk
      · exact inside k hk
      · exact .of_childless hk
  | cons i is ih =>
    cases h with
    | literal text => exact .literal text
    | deferred name payload => exact .deferred name payload
    | @tree name children separated inside =>
      cases hget : children[i]? with
      | none =>
        have hi : children.length ≤ i := List.getElem?_eq_none_iff.1 hget
        rw [Node.alterAt, List.modify_eq_self hi]
        exact .tree name separated inside
      | some child =>
        obtain ⟨before, after, rfl, rfl⟩ := exists_of_getElem? hget
        rw [alterAt_tree]
        refine .tree name (separated.of_texts ?_) fun k hk => ?_
        · simp
        · rcases List.mem_append.1 hk with hk | hk
          · exact inside k (List.mem_append_left _ hk)
          · rcases List.mem_cons.1 hk with rfl | hk
            · exact ih (inside child (by simp))
            · exact inside k (by simp [hk])

end Node

namespace Cursor

theorem down?_of_split {c : Cursor ρ} {before after inside : List (Node ρ)} {name : String}
    (h : c.latest.reverse = before ++ .tree name inside :: after) : c.down? before.length =
      some ⟨name, inside.reverse, ⟨c.name, before.reverse, after⟩ :: c.frames, c.outer⟩ := by
  simp [down?, h]

/-- Moving the focus along a list of positions leads to the tree at that place, and what is done to
the children there is done to the document. -/
theorem descend?_cases (c : Cursor ρ) (p : List Nat) :
    (c.descend? p = none ∧ c.focus.childrenAt? p = none) ∨
      ∃ d, c.descend? p = some d ∧ c.focus.childrenAt? p = some d.latest.reverse ∧
        ∀ change, close (.tree d.name (change d.latest.reverse)) d.frames =
          close (c.focus.alterAt change p) c.frames := by
  induction p generalizing c with
  | nil =>
    right
    exact ⟨c, rfl, rfl, fun change => rfl⟩
  | cons i is ih =>
    have hplaces : c.focus.childrenAt? (i :: is) =
        c.latest.reverse[i]?.bind (Node.childrenAt? is) := rfl
    rw [descend?, hplaces]
    cases hget : c.latest.reverse[i]? with
    | none =>
      left
      simp [down?, hget]
    | some child =>
      cases child with
      | literal text =>
        left
        exact ⟨by simp [down?, hget], by cases is <;> rfl⟩
      | deferred name payload =>
        left
        exact ⟨by simp [down?, hget], by cases is <;> rfl⟩
      | tree name inside =>
        obtain ⟨before, after, hsplit, rfl⟩ := Node.exists_of_getElem? hget
        rw [down?_of_split hsplit]
        rcases ih ⟨name, inside.reverse, ⟨c.name, before.reverse, after⟩ :: c.frames, c.outer⟩ with
          ⟨hnone, hplace⟩ | ⟨d, hsome, hplace, hclose⟩
        · left
          refine ⟨hnone, ?_⟩
          simpa [focus] using hplace
        · right
          refine ⟨d, hsome, ?_, fun change => ?_⟩
          · simpa [focus] using hplace
          · have hfocus : c.focus = .tree c.name (before ++ .tree name inside :: after) := by
              rw [focus, hsplit]
            rw [hclose, hfocus, Node.alterAt_tree]
            simp [close, focus, List.reverseAux_eq]

end Cursor

end Sentential
