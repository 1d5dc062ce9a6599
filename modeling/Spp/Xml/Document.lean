import Spp.Xml.Markup
import Spp.Lib.Forest

/-!
# Documents

The documents that configurations are: an element with attributes and elements inside, with
text, comments and declarations between them.  Each part carries what makes it readable, so
that every value of these types can be written out and is a document.

## Main definitions

* `Space`, `Name`, `Attr`, `Misc`, `Elem`, `Inner` — the parts.
* `Elem.render`, `Document.render` — a document as it is written.
* `Elem.tree` — what it says: a tree of names with attributes.
* `Key`, `Path` — what a reader asks for.
-/

namespace Spp.Xml

open Scan Forest

/-- White space, or nothing. -/
structure Space where
  chars : List Char
  space : ∀ c ∈ chars, isSpace c

/-- A name: no character of it ends a token, and the first one does not begin a string. -/
structure Name where
  head : Char
  tail : List Char
  nul : ∀ c ∈ head :: tail, ¬isNul c
  special : ∀ c ∈ head :: tail, ¬isSpecial c
  quote : ¬isQuote head

def Name.chars (n : Name) : List Char := n.head :: n.tail

/-- An attribute with its value, as it is written. -/
structure Attr where
  gap : Char
  space : Space
  name : Name
  before : Space
  after : Space
  quote : Char
  raw : List Char
  isSpace_gap : isSpace gap
  isQuote_quote : isQuote quote
  nul : ∀ c ∈ raw, ¬isNul c
  closed : ∀ c ∈ raw, c ≠ quote
  bracket : ∀ c ∈ raw, c ≠ '>'

/-- What can be passed between elements by its first and last characters. -/
inductive MiscKind
  | instruction
  | comment
  | cdata

def MiscKind.opening : MiscKind → List Char
  | .instruction => ['<', '?']
  | .comment => ['<', '!', '-']
  | .cdata => ['<', '!', '[']

def MiscKind.closing : MiscKind → List Char
  | .instruction => ['?', '>']
  | .comment => ['-', '-', '>']
  | .cdata => [']', ']', '>']

/-- What lies between elements: text, or a node that ends where its closing pattern is first. -/
inductive Misc
  | text (chars : List Char) (nul : ∀ c ∈ chars, ¬isNul c) (bracket : ∀ c ∈ chars, c ≠ '<')
  | node (kind : MiscKind) (chars : List Char) (nul : ∀ c ∈ chars, ¬isNul c)
      (closes : Closes kind.closing (kind.opening ++ chars))

mutual

/-- An element, without or with an end tag. -/
inductive Elem
  | empty (name : Name) (attrs : List Attr) (space : Space)
  | full (name : Name) (attrs : List Attr) (space : Space) (inner : Inner) (close : Space)

/-- What lies between the tags of an element. -/
inductive Inner
  | done (filler : List Misc)
  | cons (filler : List Misc) (e : Elem) (rest : Inner)

end

/-! ## How it is written -/

/-- The white space in front of an attribute. -/
def Attr.lead (a : Attr) : Space where
  chars := a.gap :: a.space.chars
  space := List.forall_mem_cons.mpr ⟨a.isSpace_gap, a.space.space⟩

def Attr.render (a : Attr) : List Char :=
  a.lead.chars ++ (a.name.chars ++ (a.before.chars ++ '=' ::
    (a.after.chars ++ a.quote :: (a.raw ++ [a.quote]))))

def Misc.render : Misc → List Char
  | .text chars _ _ => chars
  | .node kind chars _ _ => kind.opening ++ chars ++ kind.closing

def renderAttrs (attrs : List Attr) : List Char := attrs.flatMap Attr.render

def renderFiller (filler : List Misc) : List Char := filler.flatMap Misc.render

/-- The inside of a start tag. -/
def renderTag (name : Name) (attrs : List Attr) (space : Space) : List Char :=
  name.chars ++ (renderAttrs attrs ++ space.chars)

mutual

def Elem.render : Elem → List Char
  | .empty name attrs space => '<' :: (renderTag name attrs space ++ ['/', '>'])
  | .full name attrs space inner close =>
      '<' :: (renderTag name attrs space ++ '>' ::
        (inner.render ++ '<' :: '/' :: (name.chars ++ (close.chars ++ ['>']))))

def Inner.render : Inner → List Char
  | .done filler => renderFiller filler
  | .cons filler e rest => renderFiller filler ++ (e.render ++ rest.render)

end

/-- A document: behind the root element there may be anything. -/
structure Document where
  prolog : List Misc
  root : Elem
  rest : List Char

def Document.render (d : Document) : List Char :=
  renderFiller d.prolog ++ (d.root.render ++ d.rest)

/-! ## What it says -/

/-- What an element says itself: its name, and its attributes with their values. -/
structure Label where
  name : List Char
  attrs : List (List Char × List Char)

/-- The value of an attribute, or nothing. -/
def Label.attrib (l : Label) (name : List Char) : List Char :=
  match l.attrs.find? fun a => a.1 = name with
  | some a => a.2
  | none => []

def Attr.value (a : Attr) : List Char × List Char := (a.name.chars, unescapeFrom 0 a.raw)

def label (name : Name) (attrs : List Attr) : Label := ⟨name.chars, attrs.map Attr.value⟩

mutual

def Elem.tree : Elem → Rose Label
  | .empty name attrs _ => .node (label name attrs) []
  | .full name attrs _ inner _ => .node (label name attrs) inner.trees

def Inner.trees : Inner → List (Rose Label)
  | .done _ => []
  | .cons _ e rest => e.tree :: rest.trees

end

/-! ## What is asked for -/

/-- A name to ask for: no character of it ends a name in a path, and it is not a wildcard. -/
structure Key where
  head : Char
  tail : List Char
  nul : ∀ c ∈ head :: tail, ¬isNul c
  plain : ∀ c ∈ head :: tail, c ∉ [' ', '=', '/', '[']
  star : head ≠ '*'

def Key.chars (k : Key) : List Char := k.head :: k.tail

/-- A step of a path: an element with a name, or any. -/
inductive PathStep
  | any
  | key (k : Key)

def PathStep.chars : PathStep → List Char
  | .any => ['*']
  | .key k => k.chars

def PathStep.test : PathStep → Label → Bool
  | .any, _ => true
  | .key k, l => l.name = k.chars

/-- A path from the root or from where the reader is; without steps, the next element. -/
structure Path where
  absolute : Bool
  steps : List PathStep

def renderSteps : PathStep → List PathStep → List Char
  | s, [] => s.chars
  | s, s' :: ss => s.chars ++ '/' :: renderSteps s' ss

def Path.chars (p : Path) : List Char :=
  (if p.absolute then ['/'] else []) ++
    match p.steps with
    | [] => []
    | s :: ss => renderSteps s ss

def Path.tests (p : Path) : List (Label → Bool) := p.steps.map PathStep.test

/-! ## Small facts -/

theorem isSpecial_of_isSpace {c : Char} (h : isSpace c) : isSpecial c := by
  simp [isSpecial, h]

theorem not_isNul_of_isSpace {c : Char} (h : isSpace c) : ¬isNul c := by
  simp only [isSpace, List.mem_cons, List.not_mem_nil, or_false, decide_eq_true_eq] at h
  rcases h with rfl | rfl | rfl | rfl <;> decide

theorem not_isSpace_of_isQuote {c : Char} (h : isQuote c) : ¬isSpace c ∧ ¬isNul c := by
  simp only [isQuote, List.mem_cons, List.not_mem_nil, or_false, decide_eq_true_eq] at h
  rcases h with rfl | rfl <;> decide

theorem Name.not_isSpace (n : Name) {c : Char} (hc : c ∈ n.chars) : ¬isSpace c :=
  fun h => n.special c hc (isSpecial_of_isSpace h)

theorem Name.ne_of_isSpecial (n : Name) {c d : Char} (hc : c ∈ n.chars) (hd : isSpecial d) :
    c ≠ d := by
  rintro rfl
  exact n.special c hc hd

/-! ## Values -/

theorem unescapeFrom_append (a s : List Char) :
    unescapeFrom a.length (a ++ s) = unescapeFrom 0 s := by
  induction a with
  | nil => rfl
  | cons c a ih => exact ih

/-- No entity begins with another one. -/
theorem entities_prefix : ∀ e ∈ entities, ∀ e' ∈ entities, e.1 <+: e'.1 → e = e' := by
  decide

/-- What is written for an entity is read as its character. -/
theorem unescapeFrom_entity {e : List Char × Char} (he : e ∈ entities) (s : List Char) :
    unescapeFrom 0 ('&' :: (e.1 ++ s)) = e.2 :: unescapeFrom 0 s := by
  have hfind : (entities.find? fun e' => e'.1.isPrefixOf (e.1 ++ s)) = some e := by
    obtain ⟨e', hfind⟩ : ∃ e', (entities.find? fun e' => e'.1.isPrefixOf (e.1 ++ s)) = some e' := by
      rw [← Option.isSome_iff_exists, List.find?_isSome]
      exact ⟨e, he, by simp⟩
    have hmem := List.mem_of_find?_eq_some hfind
    have hsome : e'.1.isPrefixOf (e.1 ++ s) := by
      have hsome := List.find?_some hfind
      exact hsome
    have hpre := List.isPrefixOf_iff_prefix.mp hsome
    rcases List.prefix_or_prefix_of_prefix hpre (List.prefix_append e.1 s) with h | h
    · rw [hfind, entities_prefix e' hmem e he h]
    · rw [hfind, entities_prefix e he e' hmem h]
  rw [unescapeFrom, if_pos rfl, hfind]
  exact congrArg _ (unescapeFrom_append e.1 s)

/-- How a character is written. -/
theorem xTextToDoc_cons (c : Char) (v : List Char) (b : Bool) :
    (∃ e ∈ entities, e.2 = c ∧ xTextToDoc (c :: v) b = '&' :: (e.1 ++ xTextToDoc v b)) ∨
      (c ≠ '&' ∧ c ≠ '<' ∧ c ≠ '>' ∧ (b = true → ¬isQuote c) ∧
        xTextToDoc (c :: v) b = c :: xTextToDoc v b) := by
  rw [xTextToDoc, List.flatMap_cons]
  rcases hfind : entities.find? fun e => e.2 = c && (b || !isQuote c) with _ | e
  · refine .inr ?_
    have hnone := hfind
    rw [List.find?_eq_none] at hfind
    have hother : ∀ e ∈ entities, isQuote e.2 = false ∨ b = true → c ≠ e.2 := by
      rintro e he hb rfl
      refine hfind e he ?_
      rcases hb with hb | hb <;> simp [hb]
    refine ⟨?_, ?_, ?_, ?_, by rw [hnone]; rfl⟩
    · exact hother (['a', 'm', 'p', ';'], '&') (by decide) (.inl rfl)
    · exact hother (['l', 't', ';'], '<') (by decide) (.inl rfl)
    · exact hother (['g', 't', ';'], '>') (by decide) (.inl rfl)
    · intro hb hquote
      simp only [isQuote, List.mem_cons, List.not_mem_nil, or_false, decide_eq_true_eq] at hquote
      rcases hquote with hquote | hquote
      · exact hother (['q', 'u', 'o', 't', ';'], '\"') (by decide) (.inr hb) hquote
      · exact hother (['a', 'p', 'o', 's', ';'], '\'') (by decide) (.inr hb) hquote
  · refine .inl ⟨e, List.mem_of_find?_eq_some hfind, ?_, by rw [hfind]; rfl⟩
    have hsome := List.find?_some hfind
    rw [Bool.and_eq_true] at hsome
    exact of_decide_eq_true hsome.1

theorem unescapeFrom_xTextToDoc (v : List Char) (b : Bool) :
    unescapeFrom 0 (xTextToDoc v b) = v := by
  induction v with
  | nil => rfl
  | cons c v ih =>
      rcases xTextToDoc_cons c v b with ⟨e, he, rfl, hwrite⟩ | ⟨hamp, -, -, -, hwrite⟩
      · rw [hwrite, unescapeFrom_entity he, ih]
      · rw [hwrite, unescapeFrom, if_neg hamp, ih]

/-- Nothing that is written ends the attribute or the tag it is in. -/
theorem mem_xTextToDoc {v : List Char} {x : Char} (hx : x ∈ xTextToDoc v true) :
    ¬isQuote x ∧ x ≠ '<' ∧ x ≠ '>' := by
  induction v with
  | nil => cases hx
  | cons c v ih =>
      rcases xTextToDoc_cons c v true with ⟨e, he, -, hwrite⟩ | ⟨-, hleft, hright, hquote, hwrite⟩
      · rw [hwrite, List.mem_cons, List.mem_append] at hx
        have hcode : ∀ e ∈ entities, ∀ x ∈ e.1, ¬isQuote x ∧ x ≠ '<' ∧ x ≠ '>' := by
          simp [entities, isQuote]
        rcases hx with rfl | hx | hx
        · decide
        · exact hcode e he x hx
        · exact ih hx
      · rw [hwrite, List.mem_cons] at hx
        rcases hx with rfl | hx
        · exact ⟨hquote rfl, hleft, hright⟩
        · exact ih hx

/-- Text that was written is read as it was, wherever it stands in a document; in an attribute
it holds no quote and no angle bracket. -/
theorem xTextFromDoc_xTextToDoc (a v t : List Char) (b : Bool) :
    xTextFromDoc (a ++ (xTextToDoc v b ++ t)) a.length (a.length + (xTextToDoc v b).length) = v ∧
      (b = true → ∀ x ∈ xTextToDoc v b, ¬isQuote x ∧ x ≠ '<' ∧ x ≠ '>') := by
  refine ⟨?_, ?_⟩
  · rw [xTextFromDoc, List.drop_left, Nat.add_sub_cancel_left, List.take_left]
    exact unescapeFrom_xTextToDoc v b
  · rintro rfl x hx
    exact mem_xTextToDoc hx

end Spp.Xml
