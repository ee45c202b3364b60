/-!
# Markup

An XML text as a list of items: tags, runs of text between them, and sections of literal text.
Comments, instructions and document types are skipped. Scanning never fails: where the text stops
being markup, the list ends and says so, so that a reader of the items meets the faults of a text
in their order. Every round of the scanner takes at least one character.
-/

namespace Netconf.Xml

/-- An item of an XML text. -/
inductive Markup where
  /-- A start tag: its name, and the text of its attributes. -/
  | opening (name attributes : List Char)
  /-- The tag of an empty element. -/
  | single (name attributes : List Char)
  /-- An end tag. -/
  | closing (name : List Char)
  /-- A run of text without the blanks at its ends; its references are not replaced yet. -/
  | text (cs : List Char)
  /-- A section of literal text. -/
  | literal (cs : List Char)
  deriving DecidableEq, Inhabited

/-- The items of a text, up to the first place that is no markup. -/
structure Scanned where
  /-- The items in order. -/
  items : List Markup
  /-- Whether they are all of the text. -/
  complete : Bool
  deriving DecidableEq, Inhabited

/-- The blanks between the parts of markup. -/
def isSpace (c : Char) : Bool := c == ' ' || c == '\t' || c == '\r' || c == '\n'

/-- A list of characters without the blanks at its end. -/
def trimRight (cs : List Char) : List Char := (cs.reverse.dropWhile isSpace).reverse

/-- A list of characters without the blanks at its ends. -/
def trimBoth (cs : List Char) : List Char := trimRight (cs.dropWhile isSpace)

/-! ## Ends of markup -/

/-- Cuts at the first `>` where `closes` holds of the characters before it, last character first;
`before` are those read so far. -/
def cutAt (closes : List Char → Bool) (before : List Char) :
    List Char → Option (List Char × List Char)
  | [] => none
  | c :: cs =>
    if c = '>' ∧ closes before = true then some (before.reverse, cs)
    else cutAt closes (c :: before) cs

/-- Cuts a tag at the first `>` outside quotes; `quote` is the one that is open. -/
def cutTag (quote : Option Char) (before : List Char) :
    List Char → Option (List Char × List Char)
  | [] => none
  | c :: cs =>
    match quote with
    | some q => cutTag (if c = q then none else some q) (c :: before) cs
    | none =>
      if c = '>' then some (before.reverse, cs)
      else cutTag (if c = '\'' ∨ c = '"' then some c else none) (c :: before) cs

/-- Cuts a document type at the `>` that balances every `<` in it; `depth` of them are open. -/
def cutBalanced (depth : Nat) (before : List Char) : List Char → Option (List Char × List Char)
  | [] => none
  | c :: cs =>
    if c = '<' then cutBalanced (depth + 1) (c :: before) cs
    else if c = '>' then
      match depth with
      | 0 => some (before.reverse, cs)
      | depth + 1 => cutBalanced depth (c :: before) cs
    else cutBalanced depth (c :: before) cs

/-! ## Items -/

/-- An item that was read, if it is not skipped, and the text behind it. -/
abbrev Reading := Option (Option Markup × List Char)

/-- Reads a section of literal text from behind `<!`. -/
def readLiteral (cs : List Char) : Reading :=
  match cutAt (fun before => "]]".toList.isPrefixOf before) [] cs with
  | none => none
  | some (body, rest) =>
    match "[CDATA[".toList.isPrefixOf? body with
    | none => none
    | some content => some (some (.literal (content.take (content.length - 2))), rest)

/-- Reads a comment from behind `<!`. -/
def readComment (cs : List Char) : Reading :=
  let closes (before : List Char) : Bool :=
    "--".toList.isPrefixOf before && decide (4 ≤ before.length)
  match cutAt closes [] cs with
  | none => none
  | some (body, rest) => if "--".toList.isPrefixOf body then some (none, rest) else none

/-- Reads a document type from behind `<!`. -/
def readDoctype (cs : List Char) : Reading :=
  match cutBalanced 0 [] cs with
  | none => none
  | some (body, rest) =>
    if body.take 7 |>.map Char.toUpper |> (· == "DOCTYPE".toList) then
      if (body.drop 7).all isSpace then none else some (none, rest)
    else none

/-- Reads an instruction from behind `<`. -/
def readInstruction (cs : List Char) : Reading :=
  match cutAt (fun before => before.head? == some '?') [] cs with
  | none => none
  | some (body, rest) => if body.length ≤ 1 then none else some (none, rest)

/-- The name in an end tag: its text without the blanks at its end. A text of blanks alone is no
name and stays as it is, so that it ends no element. -/
def closingName (cs : List Char) : List Char := if cs.all isSpace then cs else trimRight cs

/-- Reads a tag from behind `<`. -/
def readTag (cs : List Char) : Reading :=
  match cutTag none [] cs with
  | none => none
  | some ('/' :: name, rest) => some (some (.closing (closingName name)), rest)
  | some (body, rest) =>
    let isEmpty := body.getLast? == some '/'
    let inner := if isEmpty then body.dropLast else body
    let name := inner.takeWhile fun c => !isSpace c
    let attributes := inner.dropWhile fun c => !isSpace c
    some (some (if isEmpty then .single name attributes else .opening name attributes), rest)

/-- Reads the item that starts behind `<`. -/
def readItem : List Char → Reading
  | [] => none
  | '!' :: '[' :: cs => readLiteral ('[' :: cs)
  | '!' :: '-' :: cs => readComment ('-' :: cs)
  | '!' :: 'D' :: cs => readDoctype ('D' :: cs)
  | '!' :: 'd' :: cs => readDoctype ('d' :: cs)
  | '!' :: _ => none
  | '?' :: cs => readInstruction ('?' :: cs)
  | cs => readTag cs

/-- The item of a run of text; a run of blanks has none. -/
def textItem (cs : List Char) : List Markup :=
  let run := trimBoth cs
  if run.isEmpty then [] else [.text run]

/-- The items of the first `rounds` rounds. -/
def scanFor : Nat → List Char → Scanned
  | 0, _ => ⟨[], true⟩
  | rounds + 1, cs =>
    let run := textItem (cs.takeWhile fun c => c != '<')
    match cs.dropWhile fun c => c != '<' with
    | [] => ⟨run, true⟩
    | _ :: after =>
      match readItem after with
      | none => ⟨run, false⟩
      | some (item, rest) =>
        let others := scanFor rounds rest
        ⟨run ++ item.toList ++ others.items, others.complete⟩

/-- The mark that a text may start with to tell its encoding. -/
def byteOrderMark : Char := '\uFEFF'

/-- The items of an XML text. -/
def scan (cs : List Char) : Scanned :=
  let body := if cs.head? == some byteOrderMark then cs.tail else cs
  scanFor (body.length + 1) body

end Netconf.Xml
