import Spp.Lib.Scan
import Mathlib.Logic.Function.Basic

/-!
# The reader of configurations

`CMarkupSTL` keeps a document as it is and an array of positions in it, one for each element.
`SetDoc` makes the array in one pass; `FindElem`, `IntoElem`, `GetAttrib` and the like move
about in it and take tokens from the document.  A character stands for a byte, and a document
ends at its first null byte.

## Main definitions

* `xFindChar`, `xFindToken`, `xParseNode`, `startTag`, `endTag` — the scanner.
* `xParseElem`, `xParseInner`, `setDoc` — the parser.
* `xFindElem`, `xFindAttrib`, `xTextFromDoc`, `xGetTagName`, `xGetAttrib` — what is read.
* `Markup` — a document with its positions, and the calls on it.

A loop has `fuel` for a number of turns; `none` is a loop that has not ended then.
-/

namespace Spp.Xml

open Scan

/-! ## The scanner -/

/-- `szDoc[n]`; behind the document there is a null byte. -/
def peek (szDoc : List Char) (n : ℕ) : Char := szDoc.getD n (Char.ofNat 0)

/-- `strchr(" \t\n\r", c)`. -/
def isSpace (c : Char) : Bool := c ∈ [' ', '\t', '\n', '\r']

/-- `strchr(" \t\n\r<>=\\/?!", c)`. -/
def isSpecial (c : Char) : Bool := isSpace c || c ∈ ['<', '>', '=', '\\', '/', '?', '!']

def isQuote (c : Char) : Bool := c ∈ ['\"', '\'']

def isNul (c : Char) : Bool := c = Char.ofNat 0

/-- `x_FindChar`: where the character is, or the end, and whether it was found. -/
def xFindChar (szDoc : List Char) (nChar : ℕ) (c : Char) : ℕ × Bool :=
  let nChar := skipWhile (fun x => !isNul x && x != c) szDoc nChar
  (nChar, !isNul (peek szDoc nChar))

/-- `TokenPos` without the document. -/
structure TokenPos where
  nL : ℕ
  nR : ℕ
  nNext : ℕ
  bIsString : Bool
  deriving DecidableEq

/-- `x_FindToken` from a position; the second part is `false` at the end. -/
def xFindToken (szDoc : List Char) (nNext : ℕ) : TokenPos × Bool :=
  let nChar := skipWhile isSpace szDoc nNext
  let cFirstChar := peek szDoc nChar
  if isNul cFirstChar then (⟨nChar, nChar, nChar, false⟩, false)
  else if isQuote cFirstChar then
    let (nEnd, found) := xFindChar szDoc (nChar + 1) cFirstChar
    (⟨nChar + 1, nEnd - 1, if found then nEnd + 1 else nEnd, true⟩, true)
  else
    let nEnd := skipWhile (fun x => !isNul x && !isSpecial x) szDoc nChar
    let nEnd := if nEnd = nChar then nChar + 1 else nEnd
    (⟨nChar, nEnd - 1, nEnd, false⟩, true)

/-- `x_GetToken`. -/
def xGetToken (szDoc : List Char) (token : TokenPos) : List Char :=
  if token.nL > token.nR then []
  else
    (szDoc.drop token.nL).take
      (token.nR - token.nL + if token.nR < szDoc.length then 1 else 0)

/-- `TokenPos::Match`. -/
def TokenPos.matches (token : TokenPos) (szDoc szName : List Char) : Bool :=
  let nLen := token.nR + 1 - token.nL
  (szDoc.drop token.nL).take nLen = szName.take nLen &&
    (isNul (peek szName nLen) || peek szName nLen ∈ [' ', '=', '/', '['])

/-- The loop of `x_ParseNode` over the tokens of a document type: the position behind it. -/
def docType (szDoc : List Char) : ℕ → ℕ → ℤ → Option (Option ℕ)
  | 0, _, _ => none
  | fuel + 1, nNext, nBrackets =>
      match xFindToken szDoc nNext with
      | (_, false) => some none
      | (token, true) =>
          let cChar := peek szDoc token.nL
          if token.bIsString then docType szDoc fuel token.nNext nBrackets
          else if cChar = '[' then docType szDoc fuel token.nNext (nBrackets + 1)
          else if cChar = ']' then docType szDoc fuel token.nNext (nBrackets - 1)
          else if nBrackets = 0 ∧ cChar = '>' then some (some token.nNext)
          else docType szDoc fuel token.nNext nBrackets

/-- The end of a node that is closed by a pattern. -/
def closedBy (szDoc : List Char) (nNext : ℕ) (szEndOfNode : List Char) : Option ℕ :=
  (find szEndOfNode (szDoc.drop nNext)).map fun n => nNext + n + szEndOfNode.length

/-- `x_ParseNode` at a left angle bracket: the position behind the node, if there is a node.
For an element that is where it was. -/
def xParseNode (szDoc : List Char) (fuel nNext : ℕ) : Option (Option ℕ) :=
  let cFirstChar := peek szDoc (nNext + 1)
  let cSecondChar := peek szDoc (nNext + 2)
  if isNul cFirstChar || isNul cSecondChar then some none
  else if cFirstChar = '?' then some (closedBy szDoc nNext ['?', '>'])
  else if cFirstChar = '!' then
    if cSecondChar = '[' then some (closedBy szDoc nNext [']', ']', '>'])
    else if cSecondChar = '-' then some (closedBy szDoc nNext ['-', '-', '>'])
    else docType szDoc fuel nNext 0
  else if cFirstChar = '/' then some none
  else some (some nNext)

/-- What `x_ParseError` comes to: `m_strError` is set, or the text is too long for `szFormat`. -/
inductive ParseError
  | failed (strError : List Char)
  | overflow
  deriving DecidableEq

/-- `sprintf` of a format with `%s` in it. -/
def formatName : List Char → List Char → List Char
  | [], _ => []
  | '%' :: 's' :: szError, szName => szName ++ formatName szError szName
  | c :: szError, szName => c :: formatName szError szName

/-- `x_ParseError`; `szFormat` has 300 bytes, one of them for the null byte. -/
def xParseError (szError : String) : Option (List Char) → ParseError
  | none => .failed szError.toList
  | some szName =>
      let szFormat := formatName szError.toList szName
      if szFormat.length < 300 then .failed szFormat else .overflow

/-- What the search for a start tag ends with. -/
inductive StartTag
  | error (e : ParseError)
  /-- An end tag begins at `nStartL`. -/
  | release (nStartL : ℕ)
  /-- A tag with its name begins at `nStartL` and ends at `nStartR`. -/
  | found (nStartL : ℕ) (name : List Char) (nStartR : ℕ)
  deriving DecidableEq

/-- The first loop of `x_ParseElem`: it passes comments, declarations and the like. -/
def startTag (szDoc : List Char) : ℕ → ℕ → Option StartTag
  | 0, _ => none
  | fuel + 1, nNext =>
      match xFindChar szDoc nNext '<' with
      | (_, false) => some (.error (xParseError "Element tag not found" none))
      | (nStartL, true) =>
          match xFindToken szDoc (nStartL + 1) with
          | (_, false) => some (.error (xParseError "Abrupt end within tag" none))
          | (token, true) =>
              let cFirstChar := peek szDoc token.nL
              if token.bIsString then some (.error (xParseError "Tag starts with quote" none))
              else if cFirstChar = '?' ∨ cFirstChar = '!' then
                match xParseNode szDoc fuel nStartL with
                | none => none
                | some none => some (.error (xParseError "Invalid node" none))
                | some (some nNext) => startTag szDoc fuel nNext
              else if cFirstChar ≠ '/' then
                let strName := xGetToken szDoc token
                match xFindChar szDoc token.nNext '>' with
                | (_, false) => some (.error (xParseError "End of tag not found" none))
                | (nNext, true) =>
                    if strName = [] then startTag szDoc fuel nNext
                    else some (.found nStartL strName nNext)
              else some (.release nStartL)

/-- The last loop of `x_ParseElem`, over the tokens of an end tag: the position of its right
angle bracket. -/
def endTag (szDoc strName : List Char) : ℕ → ℕ → ℕ → Option (Except ParseError ℕ)
  | 0, _, _ => none
  | fuel + 1, nNext, nTokenCount =>
      match xFindToken szDoc nNext with
      | (_, false) =>
          some (.error (xParseError "End tag not completed for element %s" (some strName)))
      | (token, true) =>
          let nTokenCount := nTokenCount + 1
          if token.bIsString then endTag szDoc strName fuel token.nNext nTokenCount
          else if nTokenCount = 1 ∧ peek szDoc token.nL ≠ '/' then
            some (.error (xParseError "Expecting end tag of element %s" (some strName)))
          else if nTokenCount = 2 ∧ ¬token.matches szDoc strName then
            some (.error (xParseError "End tag does not correspond to %s" (some strName)))
          else if peek szDoc token.nL = '>' then
            if nTokenCount < 2 then
              some (.error (xParseError "End tag not completed for element %s" (some strName)))
            else some (.ok token.nL)
          else endTag szDoc strName fuel token.nNext nTokenCount

/-! ## The parser -/

/-- `ElemPos`. -/
structure ElemPos where
  nStartL : ℕ
  nStartR : ℕ
  nEndL : ℕ
  nEndR : ℕ
  iElemParent : ℕ
  iElemChild : ℕ
  iElemNext : ℕ
  deriving DecidableEq

/-- `ElemPos::Clear`. -/
def ElemPos.clear : ElemPos := ⟨0, 0, 0, 0, 0, 0, 0⟩

/-- `m_aPos` and `m_iPosFree`. -/
structure Positions where
  aPos : ℕ → ElemPos
  iPosFree : ℕ

def Positions.modify (s : Positions) (i : ℕ) (f : ElemPos → ElemPos) : Positions :=
  { s with aPos := Function.update s.aPos i (f (s.aPos i)) }

mutual

/-- `x_ParseElem`: the index of an element, or zero where there is an end tag.  The entry that
is taken for a tag and given back is not written here; nobody reads it before it is taken
again. -/
def xParseElem (szDoc : List Char) : ℕ → ℕ → Positions → Option (Except ParseError (ℕ × Positions))
  | 0, _, _ => none
  | fuel + 1, iPosParent, s =>
      match startTag szDoc fuel (s.aPos iPosParent).nEndL with
      | none => none
      | some (.error e) => some (.error e)
      | some (.release nStartL) =>
          some (.ok (0, s.modify iPosParent fun pos => { pos with nEndL := nStartL }))
      | some (.found nStartL strName nStartR) =>
          let iPos := s.iPosFree
          let s := s.modify iPosParent fun pos => { pos with nEndL := nStartL }
          let s := { s with iPosFree := iPos + 1 }
          if peek szDoc (nStartR - 1) = '/' then
            some (.ok (iPos, s.modify iPos fun _ =>
              ⟨nStartL, nStartR, nStartR - 1, nStartR, iPosParent, 0, 0⟩))
          else
            let s := s.modify iPos fun pos =>
              ⟨nStartL, nStartR, nStartR + 1, pos.nEndR, iPosParent, 0, 0⟩
            match xParseInner szDoc fuel iPos 0 s with
            | none => none
            | some (.error e) => some (.error e)
            | some (.ok s) =>
                match xFindChar szDoc (s.aPos iPos).nEndL '<' with
                | (_, false) =>
                    some (.error (xParseError "End tag of %s element not found" (some strName)))
                | (nEndL, true) =>
                    match endTag szDoc strName fuel (nEndL + 1) 0 with
                    | none => none
                    | some (.error e) => some (.error e)
                    | some (.ok nEndR) =>
                        some (.ok (iPos, s.modify iPos fun pos =>
                          { pos with nEndL := nEndL, nEndR := nEndR }))

/-- The loop of `x_ParseElem` over the elements inside `iPos`, behind `iInnerPrev`. -/
def xParseInner (szDoc : List Char) : ℕ → ℕ → ℕ → Positions → Option (Except ParseError Positions)
  | 0, _, _, _ => none
  | fuel + 1, iPos, iInnerPrev, s =>
      match xParseElem szDoc fuel iPos s with
      | none => none
      | some (.error e) => some (.error e)
      | some (.ok (0, s)) => some (.ok s)
      | some (.ok (iInner + 1, s)) =>
          let iInner := iInner + 1
          let s :=
            if iInnerPrev ≠ 0 then
              s.modify iInnerPrev fun pos => { pos with iElemNext := iInner }
            else s.modify iPos fun pos => { pos with iElemChild := iInner }
          let nEndR := (s.aPos iInner).nEndR
          let s := s.modify iPos fun pos => { pos with nEndL := nEndR + 1 }
          xParseInner szDoc fuel iPos iInner s

end

/-! ## What is read -/

/-- The entities of `x_TextFromDoc`, without the ampersand. -/
def entities : List (List Char × Char) :=
  [(['l', 't', ';'], '<'), (['a', 'm', 'p', ';'], '&'), (['g', 't', ';'], '>'),
    (['a', 'p', 'o', 's', ';'], '\''), (['q', 'u', 'o', 't', ';'], '\"')]

/-- The loop of `x_TextFromDoc`, which passes the `k` characters of an entity. -/
def unescapeFrom : ℕ → List Char → List Char
  | _, [] => []
  | k + 1, _ :: s => unescapeFrom k s
  | 0, c :: s =>
      if c = '&' then
        match entities.find? fun e => e.1.isPrefixOf s with
        | some e => e.2 :: unescapeFrom e.1.length s
        | none => c :: unescapeFrom 0 s
      else c :: unescapeFrom 0 s

/-- `x_TextFromDoc` of the text from `nLeft` until before `nRight`. -/
def xTextFromDoc (szDoc : List Char) (nLeft nRight : ℕ) : List Char :=
  unescapeFrom 0 ((szDoc.drop nLeft).take (nRight - nLeft))

/-- `x_TextToDoc`. -/
def xTextToDoc (szText : List Char) (bAttrib : Bool) : List Char :=
  szText.flatMap fun c =>
    match entities.find? fun e => e.2 = c && (bAttrib || !isQuote c) with
    | some e => '&' :: e.1
    | none => [c]

/-- `x_FindAttrib` with a name, from a token on that is the `nCount`-th. -/
def xFindAttrib (szDoc szAttrib : List Char) : ℕ → ℕ → ℕ → ℕ → Option (Option TokenPos)
  | 0, _, _, _ => none
  | fuel + 1, nNext, nAttrib, nCount =>
      match xFindToken szDoc nNext with
      | (_, false) => some none
      | (token, true) =>
          let cChar := peek szDoc token.nL
          if ¬token.bIsString then
            if cChar = '>' ∨ cChar = '/' then some none
            else if cChar = '=' then
              xFindAttrib szDoc szAttrib fuel token.nNext nAttrib (nCount + 1)
            else if nAttrib = 0 ∧ nCount ≠ 0 then
              if szAttrib = [] then some (some token)
              else if token.matches szDoc szAttrib then
                xFindAttrib szDoc szAttrib fuel token.nNext nCount (nCount + 1)
              else xFindAttrib szDoc szAttrib fuel token.nNext nAttrib (nCount + 1)
            else xFindAttrib szDoc szAttrib fuel token.nNext nAttrib (nCount + 1)
          else if nAttrib ≠ 0 ∧ nCount = nAttrib + 2 then some (some token)
          else xFindAttrib szDoc szAttrib fuel token.nNext nAttrib (nCount + 1)

/-- The loop of `x_FindElem` along `szPath`. -/
def findPath (szDoc : List Char) (aPos : ℕ → ElemPos) : ℕ → ℕ → List Char → Option ℕ
  | 0, _, _ => none
  | fuel + 1, iPos, szPath =>
      if iPos = 0 then some 0
      else
        let token := (xFindToken szDoc ((aPos iPos).nStartL + 1)).1
        let nLen := token.nR - token.nL + 1
        if peek szPath 0 = '*' then
          if peek szPath 1 = '/' then
            findPath szDoc aPos fuel (aPos iPos).iElemChild (szPath.drop 2)
          else some iPos
        else if token.matches szDoc szPath then
          if peek szPath nLen = '/' then
            findPath szDoc aPos fuel (aPos iPos).iElemChild (szPath.drop (nLen + 1))
          else some iPos
        else findPath szDoc aPos fuel (aPos iPos).iElemNext szPath

/-- `x_FindElem`; an empty path stands for none. -/
def xFindElem (szDoc : List Char) (aPos : ℕ → ElemPos) (fuel iPosParent iPos : ℕ)
    (szPath : List Char) : Option ℕ :=
  let start :=
    if peek szPath 0 = '/' then (aPos 0).iElemChild
    else if iPos ≠ 0 then (aPos iPos).iElemNext
    else (aPos iPosParent).iElemChild
  let szPath := if peek szPath 0 = '/' then szPath.drop 1 else szPath
  if szPath = [] then some start else findPath szDoc aPos fuel start szPath

/-- `CMarkupSTL`: the document, its positions, and where the reader is.  The type of the
current node is that of an element where there is one. -/
structure Markup where
  strDoc : List Char
  aPos : ℕ → ElemPos
  iPosParent : ℕ
  iPos : ℕ
  iPosChild : ℕ

/-- What `SetDoc` comes to: it returns, with what it has set `m_strError` to where it has found an
error, or `x_ParseError` has written behind the end of its buffer. -/
inductive DocResult
  | accepted (m : Markup)
  | refused (strError : Option (List Char)) (m : Markup)
  | overflow

namespace Markup

/-- `SetDoc` of a C string. -/
def setDoc (fuel : ℕ) (aPos : ℕ → ElemPos) (szDoc : List Char) : Option DocResult :=
  let szDoc := szDoc.takeWhile fun c => !isNul c
  let empty : Markup := ⟨szDoc, Function.update aPos 0 .clear, 0, 0, 0⟩
  if szDoc = [] then some (.refused none empty)
  else
    match xParseElem szDoc fuel 0 ⟨Function.update aPos 0 .clear, 1⟩ with
    | none => none
    | some (.ok (iPos + 1, s)) =>
        some (.accepted { empty with
          aPos := (s.modify 0 fun pos => { pos with iElemChild := iPos + 1 }).aPos })
    | some (.ok (0, s)) =>
        some (.refused none { empty with aPos := Function.update s.aPos 0 .clear })
    | some (.error (.failed strError)) => some (.refused (some strError) empty)
    | some (.error .overflow) => some .overflow

/-- `x_SetPos`. -/
def xSetPos (m : Markup) (iPosParent iPos iPosChild : ℕ) : Markup :=
  { m with iPosParent := iPosParent, iPos := iPos, iPosChild := iPosChild }

/-- `FindElem`. -/
def findElem (m : Markup) (fuel : ℕ) (szName : List Char) : Option (Bool × Markup) := do
  let iPos ← xFindElem m.strDoc m.aPos fuel m.iPosParent m.iPos szName
  if iPos ≠ 0 then return (true, m.xSetPos (m.aPos iPos).iElemParent iPos 0)
  return (false, m)

/-- `FindChildElem`. -/
def findChildElem (m : Markup) (fuel : ℕ) (szName : List Char) : Option (Bool × Markup) := do
  let m ← (if m.iPos = 0 then (m.findElem fuel []).map Prod.snd else some m)
  let iPosChild ← xFindElem m.strDoc m.aPos fuel m.iPos m.iPosChild szName
  if iPosChild ≠ 0 then
    let iPos := (m.aPos iPosChild).iElemParent
    return (true, m.xSetPos (m.aPos iPos).iElemParent iPos iPosChild)
  return (false, m)

/-- `IntoElem`. -/
def intoElem (m : Markup) : Bool × Markup :=
  if m.iPos ≠ 0 then (true, m.xSetPos m.iPos m.iPosChild 0) else (false, m)

/-- `OutOfElem`. -/
def outOfElem (m : Markup) : Bool × Markup :=
  if m.iPosParent ≠ 0 then
    (true, m.xSetPos (m.aPos m.iPosParent).iElemParent m.iPosParent m.iPos)
  else (false, m)

/-- `ResetPos`. -/
def resetPos (m : Markup) : Markup := m.xSetPos 0 0 0

/-- `ResetMainPos`. -/
def resetMainPos (m : Markup) : Markup := m.xSetPos m.iPosParent 0 0

/-- `ResetChildPos`. -/
def resetChildPos (m : Markup) : Markup := m.xSetPos m.iPosParent m.iPos 0

/-- `x_GetTagName`. -/
def xGetTagName (m : Markup) (iPos : ℕ) : List Char :=
  if iPos = 0 then []
  else
    match xFindToken m.strDoc ((m.aPos iPos).nStartL + 1) with
    | (token, true) => xGetToken m.strDoc token
    | (_, false) => []

/-- `x_GetAttrib`. -/
def xGetAttrib (m : Markup) (fuel iPos : ℕ) (szAttrib : List Char) : Option (List Char) :=
  if iPos = 0 ∨ m.iPos = 0 then some []
  else
    match xFindAttrib m.strDoc szAttrib fuel ((m.aPos iPos).nStartL + 1) 0 0 with
    | none => none
    | some none => some []
    | some (some token) =>
        some (xTextFromDoc m.strDoc token.nL
          (token.nR + 1 - if token.nR < m.strDoc.length then 0 else 1))

end Markup

end Spp.Xml
