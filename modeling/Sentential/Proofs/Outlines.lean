import Mathlib.Data.List.Basic
import Sentential.Document.Outline

/-!
# Outlines by recursion

The outline of a document is laid out by recursion: what is in parentheses is a name and the
outlines of the children two columns further in, and a literal stands in quotes. What deferred nodes
carry is not looked at. Where names end before the first character that can follow them, and
literals have no quote or backslash of their own, every part of an outline tells where it ends, so
the document can be recovered from its outline.
-/
namespace Sentential

variable {ρ σ α : Type}

namespace Text.Quoted

/-- Lists that end before the first element of some kind are told from what follows them. -/
theorem append_inj_of_delimited {p : α → Bool} {s t xs ys : List α} {x y : α}
    (hs : ∀ c ∈ s, p c = true) (ht : ∀ c ∈ t, p c = true) (hx : p x = false) (hy : p y = false)
    (h : s ++ x :: xs = t ++ y :: ys) : s = t ∧ x :: xs = y :: ys := by
  have hst : s = t := by
    have htake := congrArg (List.takeWhile p) h
    rwa [List.takeWhile_append_of_pos hs, List.takeWhile_append_of_pos ht,
      List.takeWhile_cons_of_neg (by simp [hx]), List.takeWhile_cons_of_neg (by simp [hy]),
      List.append_nil, List.append_nil] at htake
  rw [hst] at h
  exact ⟨hst, List.append_cancel_left h⟩

/-- How a character of a literal is shown between the quotes. -/
def inLiteral (c : Char) : List Char :=
  if c = '\r' then ['\\', 'r'] else if c = '\n' then ['\\', 'n'] else if c = '\t' then ['\\', 't']
  else [c]

theorem toList_literal (t : String) :
    (literal t).toList = '\'' :: (t.toList.flatMap inLiteral ++ ['\'']) := by
  have hshown (c : Char) : (if c = '\r' then "\\r" else if c = '\n' then "\\n"
      else if c = '\t' then "\\t" else String.singleton c).toList = inLiteral c := by
    unfold inLiteral
    repeat' split
    · rfl
    · rfl
    · rfl
    · exact String.toList_singleton c
  simp only [literal, String.toList_append, String.toList_join, List.flatMap_map, hshown]
  rfl

theorem literal_eq (t : String) :
    literal t = "'" ++ String.ofList (t.toList.flatMap inLiteral) ++ "'" := by
  simp [← String.toList_inj, toList_literal]

theorem quote_notMem_inLiteral {c : Char} (h : c ≠ '\'') : ∀ d ∈ inLiteral c, (d != '\'') = true := by
  unfold inLiteral
  repeat' split
  all_goals simp [h]

/-- Without backslashes in a literal, those that are shown begin escapes. -/
theorem inLiteral_append_inj {c d : Char} (hc : c ≠ '\\') (hd : d ≠ '\\') {xs ys : List Char}
    (h : inLiteral c ++ xs = inLiteral d ++ ys) : c = d ∧ xs = ys := by
  unfold inLiteral at h
  grind

theorem flatMap_inLiteral_inj {s t : List Char} (hs : '\\' ∉ s) (ht : '\\' ∉ t)
    (h : s.flatMap inLiteral = t.flatMap inLiteral) : s = t := by
  have inLiteral_ne (c : Char) (rest : List Char) : inLiteral c ++ rest ≠ [] := by
    unfold inLiteral
    repeat' split
    all_goals simp
  induction s generalizing t with
  | nil =>
    cases t with
    | nil => rfl
    | cons d t => exact absurd h.symm (inLiteral_ne d _)
  | cons c s ih =>
    cases t with
    | nil => exact absurd h (inLiteral_ne c _)
    | cons d t =>
      obtain ⟨hc, hs'⟩ := not_or.1 (mt List.mem_cons.2 hs)
      obtain ⟨hd, ht'⟩ := not_or.1 (mt List.mem_cons.2 ht)
      rw [List.flatMap_cons, List.flatMap_cons] at h
      obtain ⟨rfl, hrest⟩ := inLiteral_append_inj (Ne.symm hc) (Ne.symm hd) h
      rw [ih hs' ht' hrest]

/-- A literal without quotes and backslashes is told from what follows it. -/
theorem literal_append_inj {s t : String} (hs : '\'' ∉ s.toList ∧ '\\' ∉ s.toList)
    (ht : '\'' ∉ t.toList ∧ '\\' ∉ t.toList) {xs ys : List Char}
    (h : (literal s).toList ++ xs = (literal t).toList ++ ys) : s = t ∧ xs = ys := by
  have unquoted {u : String} (hu : '\'' ∉ u.toList) :
      ∀ d ∈ u.toList.flatMap inLiteral, (d != '\'') = true := by
    intro d hd
    obtain ⟨c, hc, hd⟩ := List.mem_flatMap.1 hd
    exact quote_notMem_inLiteral (fun heq => hu (heq ▸ hc)) d hd
  simp only [toList_literal, List.cons_append, List.append_assoc] at h
  obtain ⟨htext, hrest⟩ := append_inj_of_delimited (unquoted hs.1) (unquoted ht.1) rfl rfl
    (List.cons.inj h).2
  exact ⟨String.toList_inj.1 (flatMap_inLiteral_inj hs.2 ht.2 htext), (List.cons.inj hrest).2⟩

end Text.Quoted

namespace Node

open Text Outline

/-- What stands in front of each of some children: a blank where there is only one. -/
def separator (indent : Nat) (children : List (Node ρ)) : String :=
  if children.length = 1 then " " else newline indent

mutual

/-- How a node is shown at some indentation. -/
def layout (indent : Nat) : Node ρ → String
  | literal text => "'" ++ String.ofList (text.toList.flatMap Quoted.inLiteral) ++ "'"
  | deferred name _ => "(" ++ name ++ ")"
  | tree name children =>
    "(" ++ name ++ layoutAll (separator (indent + 2) children) (indent + 2) children ++ ")"

def layoutAll (separator : String) (indent : Nat) : List (Node ρ) → String
  | [] => ""
  | n :: rest => separator ++ layout indent n ++ layoutAll separator indent rest

end

end Node

namespace Outline

open Text Node

def Item.layout : Item ρ → String
  | .text t => t
  | .node n indent => n.layout indent

theorem join_childItems (indent : Nat) (cs : List (Node ρ)) (rest : List (Item ρ)) :
    String.join ((childItems indent cs rest).map Item.layout) =
      layoutAll (newline indent) indent cs ++ String.join (rest.map Item.layout) := by
  induction cs with
  | nil => simp [childItems, layoutAll]
  | cons c cs ih => simp [childItems, layoutAll, Item.layout, ih, String.append_assoc]

/-- Children come with what stands in front of them. -/
theorem join_items (indent : Nat) (cs : List (Node ρ)) (rest : List (Item ρ)) :
    String.join ((items indent cs rest).map Item.layout) =
      layoutAll (separator indent cs) indent cs ++ String.join (rest.map Item.layout) := by
  unfold items
  split
  · simp [layoutAll, separator, Item.layout, String.append_assoc]
  · rename_i hcs
    have hlength : cs.length ≠ 1 := fun h => by
      obtain ⟨c, hc⟩ := List.length_eq_one_iff.1 h
      exact hcs c hc
    rw [separator, if_neg hlength, join_childItems]

theorem join_run (todo : List (Item ρ)) (shown : List String) :
    String.join (run todo shown).reverse =
      String.join shown.reverse ++ String.join (todo.map Item.layout) := by
  fun_induction run todo shown with
  | case1 => simp
  | case2 t rest shown ih => simp [ih, Item.layout, String.append_assoc]
  | case3 t indent rest shown ih =>
    rw [ih]
    simp [Item.layout, layout, Quoted.literal_eq, String.append_assoc]
  | case4 name payload indent rest shown ih =>
    simp [ih, Item.layout, layout, String.append_assoc]
  | case5 name children indent rest shown ih =>
    rw [ih, join_items]
    simp [Item.layout, layout, String.append_assoc]

end Outline

namespace Node

open Text Outline

theorem outline_eq_layout (n : Node ρ) : n.outline = n.layout 0 := by
  simp [outline, join_run, Item.layout]

mutual

/-- Changes what deferred nodes carry. -/
def map (f : ρ → σ) : Node ρ → Node σ
  | literal text => literal text
  | deferred name payload => deferred name (f payload)
  | tree name children => tree name (mapAll f children)

def mapAll (f : ρ → σ) : List (Node ρ) → List (Node σ)
  | [] => []
  | n :: rest => map f n :: mapAll f rest

end

theorem length_mapAll (f : ρ → σ) (nodes : List (Node ρ)) :
    (mapAll f nodes).length = nodes.length := by
  induction nodes with
  | nil => rfl
  | cons n rest ih => rw [mapAll, List.length_cons, List.length_cons, ih]

mutual

/-- What deferred nodes carry is not shown. -/
theorem layout_map (f : ρ → σ) (n : Node ρ) (indent : Nat) :
    (n.map f).layout indent = n.layout indent :=
  match n with
  | literal _ => rfl
  | deferred _ _ => rfl
  | tree name children => by
    rw [map, layout, layout, separator, length_mapAll, layoutAll_map f children, ← separator]

theorem layoutAll_map (f : ρ → σ) (nodes : List (Node ρ)) (separator : String) (indent : Nat) :
    layoutAll separator indent (mapAll f nodes) = layoutAll separator indent nodes :=
  match nodes with
  | [] => rfl
  | n :: rest => by
    rw [mapAll, layoutAll, layoutAll, layout_map f n, layoutAll_map f rest]

end

/-- Whether a character can stand in a name without looking like the end of it. -/
def nameChar (c : Char) : Bool := c != ' ' && c != '\n' && c != ')'

mutual

/-- Whether every part of the outline tells where it ends: nothing is deferred, names have no blanks,
line feeds and closing parentheses, and literals no quotes and backslashes. -/
def Legible : Node ρ → Prop
  | literal text => '\'' ∉ text.toList ∧ '\\' ∉ text.toList
  | deferred _ _ => False
  | tree name children => (∀ c ∈ name.toList, nameChar c = true) ∧ LegibleAll children

def LegibleAll : List (Node ρ) → Prop
  | [] => True
  | n :: rest => Legible n ∧ LegibleAll rest

end

theorem toList_layout_tree (indent : Nat) (name : String) (children : List (Node ρ)) :
    ((tree name children).layout indent).toList = '(' :: (name.toList ++
      ((layoutAll (separator (indent + 2) children) (indent + 2) children).toList ++ [')'])) := by
  simp [layout]

/-- What comes behind the name of a tree tells how many children it has: none, one or several. -/
def head : List (Node ρ) → Char
  | [] => ')'
  | [_] => ' '
  | _ :: _ :: _ => '\n'

theorem nameChar_head (children : List (Node ρ)) : nameChar (head children) = false := by
  rcases children with _ | ⟨n, _ | ⟨m, rest⟩⟩ <;> rfl

theorem toList_newline (indent : Nat) :
    (newline indent).toList = '\n' :: List.replicate indent ' ' := by
  simp [newline]

theorem head_layoutAll (indent : Nat) (children : List (Node ρ)) (xs : List Char) :
    ∃ rest, (layoutAll (separator indent children) indent children).toList ++ ')' :: xs =
      head children :: rest := by
  rcases children with _ | ⟨n, _ | ⟨m, rest⟩⟩
  · exact ⟨xs, rfl⟩
  · have hseparator : (separator indent [n]).toList = [' '] := by simp [separator]
    simp only [layoutAll, String.toList_append, hseparator]
    exact ⟨_, rfl⟩
  · have hseparator : (separator indent (n :: m :: rest)).toList =
        '\n' :: List.replicate indent ' ' := toList_newline indent
    simp only [layoutAll, String.toList_append, hseparator]
    exact ⟨_, rfl⟩

theorem separator_eq_head (indent : Nat) (children : List (Node ρ)) :
    separator indent children = if head children = ' ' then " " else newline indent := by
  rcases children with _ | ⟨n, _ | ⟨m, rest⟩⟩ <;> simp [separator, head]

theorem exists_separator (indent : Nat) (children : List (Node ρ)) :
    ∃ c rest, (separator indent children).toList = c :: rest ∧ c ≠ ')' := by
  unfold separator
  split
  · exact ⟨' ', [], rfl, by decide⟩
  · exact ⟨'\n', _, toList_newline indent, by decide⟩

mutual

/-- The node and what follows it are recovered from the text of both. -/
theorem layout_append_inj (m : Node ρ) {n : Node ρ} (hm : m.Legible) (hn : n.Legible)
    {indent : Nat} {xs ys : List Char} :
    (m.layout indent).toList ++ xs = (n.layout indent).toList ++ ys → m = n ∧ xs = ys :=
  match m, n, hm, hn with
  | literal s, literal t, hs, ht => by
    intro h
    rw [layout, layout, ← Quoted.literal_eq, ← Quoted.literal_eq] at h
    obtain ⟨rfl, hrest⟩ := Quoted.literal_append_inj hs ht h
    exact ⟨rfl, hrest⟩
  | literal s, tree name children, _, _ => by
    intro h
    rw [layout, ← Quoted.literal_eq, Quoted.toList_literal, toList_layout_tree] at h
    cases h
  | tree name children, literal s, _, _ => by
    intro h
    rw [layout, ← Quoted.literal_eq, Quoted.toList_literal, toList_layout_tree] at h
    cases h
  | tree name children, tree name' children', ⟨hname, hm⟩, ⟨hname', hn⟩ => by
    intro h
    obtain ⟨later, hlater⟩ := head_layoutAll (indent + 2) children xs
    obtain ⟨later', hlater'⟩ := head_layoutAll (indent + 2) children' ys
    simp only [toList_layout_tree, List.cons_append, List.append_assoc, List.nil_append, hlater,
      hlater'] at h
    obtain ⟨hnames, hrest⟩ := Quoted.append_inj_of_delimited hname hname' (nameChar_head children)
      (nameChar_head children') (List.cons.inj h).2
    have hseparator : separator (indent + 2) children = separator (indent + 2) children' := by
      rw [separator_eq_head, separator_eq_head, (List.cons.inj hrest).1]
    rw [← hlater, ← hlater', hseparator] at hrest
    obtain ⟨c, tail, hc, hne⟩ := exists_separator (indent + 2) children'
    obtain ⟨rfl, hend⟩ := layoutAll_append_inj children hm hn hc hne hrest
    rw [String.toList_inj.1 hnames]
    exact ⟨rfl, hend⟩

theorem layoutAll_append_inj (ms : List (Node ρ)) {ns : List (Node ρ)} (hm : LegibleAll ms)
    (hn : LegibleAll ns) {separator : String} {c : Char} {later : List Char}
    (hseparator : separator.toList = c :: later) (hc : c ≠ ')') {indent : Nat} {xs ys : List Char}
    (h : (layoutAll separator indent ms).toList ++ ')' :: xs =
      (layoutAll separator indent ns).toList ++ ')' :: ys) : ms = ns ∧ xs = ys :=
  match ms, ns, hm, hn with
  | [], [], _, _ => ⟨rfl, (List.cons.inj h).2⟩
  | [], n :: ns, _, _ => by
    simp only [layoutAll, String.toList_append, hseparator] at h
    cases h
    exact absurd rfl hc
  | m :: ms, [], _, _ => by
    simp only [layoutAll, String.toList_append, hseparator] at h
    cases h
    exact absurd rfl hc
  | m :: ms, n :: ns, ⟨hm, hms⟩, ⟨hn, hns⟩ => by
    simp only [layoutAll, String.toList_append, List.append_assoc] at h
    obtain ⟨rfl, hrest⟩ := layout_append_inj m hm hn (List.append_cancel_left h)
    obtain ⟨rfl, hend⟩ := layoutAll_append_inj ms hms hns hseparator hc hrest
    exact ⟨rfl, hend⟩

end

end Node

/-- The outline is the layout by recursion, whatever deferred nodes carry, and documents that are
legible can be told apart by their outlines. -/
theorem Node.outline_faithful (n : Node ρ) :
    n.outline = n.layout 0 ∧ (∀ {σ : Type} (f : ρ → σ), (n.map f).outline = n.outline) ∧
      ∀ m : Node ρ, m.Legible → n.Legible → m.outline = n.outline → m = n := by
  refine ⟨n.outline_eq_layout, fun f => ?_, fun m hm hn h => ?_⟩
  · rw [outline_eq_layout, outline_eq_layout, layout_map]
  · rw [outline_eq_layout, outline_eq_layout] at h
    have htext : (m.layout 0).toList ++ [] = (n.layout 0).toList ++ [] := by rw [h]
    exact (layout_append_inj m hm hn htext).1

/-- A sole child, several children and a line break in a literal. -/
def Node.stanza : Node Unit :=
  .tree "stanza" [.tree "line" [.literal "la la\n"], .tree "rest" [], .literal "(fine)"]

theorem Node.stanza_legible : stanza.Legible := by
  have stanza_name : "stanza".toList.all nameChar = true := by decide
  have line_name : "line".toList.all nameChar = true := by decide
  have rest_name : "rest".toList.all nameChar = true := by decide
  exact ⟨List.all_eq_true.1 stanza_name,
    ⟨List.all_eq_true.1 line_name, ⟨by decide, by decide⟩, trivial⟩,
    ⟨List.all_eq_true.1 rest_name, trivial⟩, ⟨by decide, by decide⟩, trivial⟩

theorem Node.outline_faithful_stanza :
    stanza.Legible ∧
      stanza.outline = "(stanza\n  (line 'la la\\n')\n  (rest)\n  '(fine)')" ∧
      ∀ m : Node Unit, m.Legible → m.outline = stanza.outline → m = stanza := by
  have faithful := outline_faithful stanza
  refine ⟨stanza_legible, ?_, fun m hm h => faithful.2.2 m hm stanza_legible h⟩
  rw [faithful.1]
  decide +kernel

end Sentential
