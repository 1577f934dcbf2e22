import GhidraDecompiler.Xml.XmlScan

namespace GhidraDecompiler.Xml

structure Element where
  name : String
  content : String
  attr : List String
  value : List String
  children : List Element

structure Document where
  root : Element

structure OpenElement where
  name : String
  content : List UInt8
  attr : List String
  value : List String
  children : List Element

/-- An error of the decoder with its text, a panic, or a loop that the fuel of the model cuts off. -/
inductive XmlError
  | decoder (message : String)
  | panic
  | outOfFuel

def syntaxError : XmlError := .decoder "syntax error"

/-- Bytes that are not UTF-8 are converted with replacement characters. -/
def bytesToString (fromUtf8Lossy : List UInt8 → String) (bytes : List UInt8) : String :=
  match String.fromUTF8? ⟨bytes.toArray⟩ with
  | some text => text
  | none => fromUtf8Lossy bytes

def OpenElement.close (fromUtf8Lossy : List UInt8 → String) (opened : OpenElement) : Element :=
  ⟨opened.name, bytesToString fromUtf8Lossy opened.content, opened.attr, opened.value, opened.children⟩

def isWhitespaceToken (token : Int) : Bool :=
  token = code ' ' || token = code '\n' || token = code '\r' || token = code '\t'

/-- The bytes of a text. -/
def utf8 (text : String) : List UInt8 := text.toByteArray.data.toList

def convertEntityRef (reference : List UInt8) : Int :=
  if reference = utf8 "lt" then code '<'
  else if reference = utf8 "amp" then code '&'
  else if reference = utf8 "gt" then code '>'
  else if reference = utf8 "quot" then code '"'
  else if reference = utf8 "apos" then code '\''
  else -1

def hexDigitValue (byte : UInt8) : Int :=
  if byte.toNat ≤ '9'.toNat then byte.toNat - code '0'
  else if byte.toNat ≤ 'F'.toNat then 10 + byte.toNat - code 'A'
  else 10 + byte.toNat - code 'a'

/-- The arithmetic wraps at 32 bits. -/
def convertCharRef (reference : List UInt8) : Int :=
  let (digits, mult) := if reference.head? = some 'x'.toUInt8 then (reference.drop 1, 16) else (reference, 10)
  (digits.foldl (fun (val : BitVec 32) byte => val * mult + BitVec.ofInt 32 (hexDigitValue byte)) 0).toInt

def maxParseDepth : Nat := 10000

structure XmlParser where
  scan : XmlScan
  token : Option Int
  tokenValue : List UInt8
  depth : Nat
  stack : List OpenElement
  root : Option Element

abbrev ParserM := StateT XmlParser (Except XmlError)

namespace XmlParser

def new (input : List UInt8) : XmlParser := ⟨.new input, none, [], 1, [], none⟩

def setMode (mode : ScanMode) : ParserM Unit :=
  modify fun p => { p with scan := { p.scan with curmode := mode } }

def la : ParserM Int := do
  let p ← get
  match p.token with
  | some token => return token
  | none =>
      let (res, scan) := p.scan.nexttoken
      let p := if res > 255 then { p with scan := scan.clearLvalue, tokenValue := scan.lvalue } else { p with scan := scan }
      let res := if res < 0 then tokenEof else res
      set { p with token := some res }
      return res

def push : ParserM Unit := do
  let p ← get
  let depth := p.depth + 1
  set { p with depth := depth }
  if depth ≥ maxParseDepth then throw (.decoder "memory exhausted")

def reduce (length : Nat) : ParserM Unit := do
  let p ← get
  if p.depth < length then throw .panic
  set { p with depth := p.depth - length }
  push

def shift : ParserM (List UInt8) := do
  modify fun p => { p with token := none }
  push
  let p ← get
  set { p with tokenValue := [] }
  return p.tokenValue

def expect (token : Char) : ParserM Unit := do
  if (← la) ≠ code token then throw syntaxError
  let _ ← shift

def expectSequence : List Char → ParserM Unit
  | [] => return
  | token :: tokens => do
      expect token
      expectSequence tokens

/-- Every pass of a loop takes a character, which is its fuel. -/
def passes : ParserM Nat := do
  let p ← get
  return p.scan.remaining + 2

def whitespaceLoop : Nat → ParserM Unit
  | 0 => throw .outOfFuel
  | fuel + 1 => do
      if isWhitespaceToken (← la) then
        let _ ← shift
        reduce 1
        reduce 2
        whitespaceLoop fuel

def whitespaceRun : ParserM Unit := do
  let _ ← shift
  reduce 1
  reduce 1
  whitespaceLoop (← passes)

def eqLoop : Nat → ParserM Unit
  | 0 => throw .outOfFuel
  | fuel + 1 => do
      if isWhitespaceToken (← la) then
        whitespaceRun
        reduce 2
        eqLoop fuel

def eq : ParserM Unit := do
  let token ← la
  if isWhitespaceToken token then
    whitespaceRun
    expect '='
    reduce 2
  else if token = code '=' then
    let _ ← shift
    reduce 1
  else throw syntaxError
  eqLoop (← passes)

def reference : ParserM Int := do
  let _ ← shift
  setMode .name
  reduce 1
  let token ← la
  if token = nameToken then
    let name ← shift
    expect ';'
    reduce 3
    reduce 1
    return convertEntityRef name
  else if token = code '#' then
    let _ ← shift
    setMode .charRef
    reduce 2
    if (← la) ≠ charRefToken then throw syntaxError
    let reference ← shift
    expect ';'
    reduce 3
    reduce 1
    return convertCharRef reference
  else throw syntaxError

def attValueLoop (quote : Int) (mode : ScanMode) : Nat → List UInt8 → ParserM (List UInt8)
  | 0, _ => throw .outOfFuel
  | fuel + 1, result => do
      let token ← la
      if token = attValueToken then
        let piece ← shift
        setMode mode
        reduce 2
        attValueLoop quote mode fuel (result ++ piece)
      else if token = code '&' then
        let value ← reference
        setMode mode
        reduce 2
        attValueLoop quote mode fuel (result ++ [UInt8.ofInt value])
      else if token = quote then
        let _ ← shift
        reduce 2
        return result
      else throw syntaxError

def attValueIn (quote : Int) (mode : ScanMode) : ParserM (List UInt8) := do
  let _ ← shift
  setMode mode
  reduce 1
  attValueLoop quote mode (← passes) []

def attValue : ParserM (List UInt8) := do
  let quote ← la
  if quote = code '"' then attValueIn quote .attValueDouble
  else if quote = code '\'' then attValueIn quote .attValueSingle
  else throw syntaxError

def commentBody : ParserM Unit := do
  expectSequence ['-', '-']
  setMode .comment
  reduce 4
  if (← la) ≠ commentToken then throw syntaxError
  let _ ← shift
  expectSequence ['-', '-', '>']
  reduce 5

def processingInstruction : ParserM Unit := throw (.decoder "Processing instructions are not supported")

def versionLike (keyword : List Char) (pops : Nat) : ParserM Unit := do
  expectSequence keyword
  eq
  let _ ← attValue
  reduce pops

/-- The part of a declaration after the version, with the length of its right-hand side. -/
def encodingDecl : ParserM Nat := do
  if isWhitespaceToken (← la) then
    whitespaceRun
    if (← la) = code 'e' then
      versionLike "encoding".toList 11
      if isWhitespaceToken (← la) then
        whitespaceRun
        return 3
      else return 2
    else return 2
  else return 1

def xmlDecl : ParserM Unit := do
  expectSequence "xml".toList
  if !isWhitespaceToken (← la) then throw syntaxError
  whitespaceRun
  versionLike "version".toList 10
  reduce 6
  let rhsLength ← encodingDecl
  expectSequence ['?', '>']
  reduce (rhsLength + 2)

def prologMiscBrace (allowDoctype : Bool) : ParserM Unit := do
  let _ ← shift
  let token ← la
  if token = code '?' then
    let _ ← shift
    processingInstruction
  else if token ≠ code '!' then throw syntaxError
  else
    let _ ← shift
    let token ← la
    if token = code '-' then
      commentBody
      reduce 1
    else if allowDoctype && token = code 'D' then
      expectSequence "DOCTYPE".toList
      throw (.decoder "DTD's not supported")
    else throw syntaxError

def prologLoop : Nat → ParserM Unit
  | 0 => throw .outOfFuel
  | fuel + 1 => do
      let token ← la
      if isWhitespaceToken token then
        whitespaceRun
        reduce 1
        reduce 2
        prologLoop fuel
      else if token = commandBraceToken then
        prologMiscBrace true
        reduce 2
        prologLoop fuel
      else if token = elementBraceToken then reduce 1
      else throw syntaxError

def prologStart : ParserM Unit := do
  if (← la) = commandBraceToken then
    let _ ← shift
    let token ← la
    if token = code '?' then
      let _ ← shift
      if (← la) = code 'x' then
        xmlDecl
        reduce 1
      else processingInstruction
    else if token = code '!' then
      let _ ← shift
      if (← la) ≠ code '-' then throw syntaxError
      commentBody
      reduce 1
      reduce 1
    else throw syntaxError
  else
    whitespaceRun
    reduce 1
    reduce 1

def prolog : ParserM Unit := do
  prologStart
  prologLoop (← passes)

/-- Text that is all white is dropped. The innermost open element is the head of the stack. -/
def printContent (text : List UInt8) : ParserM Unit :=
  modify fun p =>
    if text.all fun byte => byte = ' '.toUInt8 || byte = '\n'.toUInt8 || byte = '\r'.toUInt8 || byte = '\t'.toUInt8 then p
    else match p.stack with
      | current :: outer => { p with stack := { current with content := current.content ++ text } :: outer }
      | [] => p

variable (fromUtf8Lossy : List UInt8 → String)

def startElement (name : String) (attributes : List (String × List UInt8)) : ParserM Unit :=
  modify fun p =>
    { p with stack := ⟨name, [], attributes.map Prod.fst, attributes.map fun a => bytesToString fromUtf8Lossy a.2, []⟩ :: p.stack }

def endElement : ParserM Unit := do
  let p ← get
  match p.stack with
  | [] => throw .panic
  | [last] => set { p with stack := [], root := some (last.close fromUtf8Lossy) }
  | last :: parent :: outer =>
      let element := last.close fromUtf8Lossy
      set { p with stack := { parent with children := parent.children ++ [element] } :: outer }

def tagEnd (name : String) (attributes : List (String × List UInt8)) (rhsLength : Nat) (token : Int) : ParserM Bool := do
  if token = code '>' then
    let _ ← shift
    reduce (rhsLength + 1)
    startElement fromUtf8Lossy name attributes
    return false
  else if token = code '/' then
    let _ ← shift
    expect '>'
    reduce (rhsLength + 2)
    startElement fromUtf8Lossy name attributes
    endElement fromUtf8Lossy
    reduce 1
    return true
  else throw syntaxError

def attributeLoop (name : String) : Nat → List (String × List UInt8) → ParserM Bool
  | 0, _ => throw .outOfFuel
  | fuel + 1, attributes => do
      let token ← la
      if token = snameToken then
        let attributeName := bytesToString fromUtf8Lossy (← shift)
        eq
        let attributeValue ← attValue
        reduce 3
        setMode .sName
        reduce 2
        attributeLoop name fuel (attributes ++ [(attributeName, attributeValue)])
      else if token = code ' ' then
        let _ ← shift
        reduce 1
        reduce 1
        tagEnd fromUtf8Lossy name attributes 2 (← la)
      else tagEnd fromUtf8Lossy name attributes 1 token

def startTag : ParserM Bool := do
  let _ ← shift
  setMode .name
  reduce 1
  if (← la) ≠ nameToken then throw syntaxError
  let name := bytesToString fromUtf8Lossy (← shift)
  setMode .sName
  reduce 2
  attributeLoop fromUtf8Lossy name (← passes) []

def cdataSection : ParserM Unit := do
  expectSequence "[CDATA[".toList
  setMode .cData
  reduce 9
  if (← la) ≠ cdataToken then throw syntaxError
  let text ← shift
  expectSequence "]]>".toList
  reduce 3
  reduce 3
  printContent text
  setMode .charData
  reduce 2

/-- The name in an end tag is not compared with the name of the element. -/
def endTag (baseLevel : Nat) : ParserM Bool := do
  let _ ← shift
  setMode .name
  reduce 2
  if (← la) ≠ nameToken then throw syntaxError
  let _ ← shift
  if isWhitespaceToken (← la) then
    whitespaceRun
    expect '>'
    reduce 4
  else
    expect '>'
    reduce 3
  reduce 3
  endElement fromUtf8Lossy
  if (← get).stack.length = baseLevel then return true
  else
    setMode .charData
    reduce 2
    return false

/-- One piece of content. The result tells whether it ends the outermost element. -/
def contentStep (baseLevel : Nat) : ParserM Bool := do
  let token ← la
  if token = charDataToken then
    let text ← shift
    printContent text
    setMode .charData
    reduce 2
    return false
  else if token = elementBraceToken then
    if ← startTag fromUtf8Lossy then
      setMode .charData
      reduce 2
    else
      setMode .charData
      push
    return false
  else if token = code '&' then
    let value ← reference
    printContent [UInt8.ofInt value]
    setMode .charData
    reduce 2
    return false
  else if token = commandBraceToken then
    let _ ← shift
    let token ← la
    if token = code '/' then endTag fromUtf8Lossy baseLevel
    else if token = code '!' then
      let _ ← shift
      let token ← la
      if token = code '-' then
        commentBody
        setMode .charData
        reduce 2
        return false
      else if token = code '[' then
        cdataSection
        return false
      else throw syntaxError
    else if token = code '?' then
      let _ ← shift
      processingInstruction
      return false
    else throw syntaxError
  else throw syntaxError

def contentLoop (baseLevel : Nat) : Nat → ParserM Unit
  | 0 => throw .outOfFuel
  | fuel + 1 => do
      if ← contentStep fromUtf8Lossy baseLevel then return
      else contentLoop baseLevel fuel

def element : ParserM Unit := do
  let baseLevel := (← get).stack.length
  if ← startTag fromUtf8Lossy then return
  else
    setMode .charData
    push
    contentLoop fromUtf8Lossy baseLevel (← passes)

def document : ParserM Element := do
  let token ← la
  if token = elementBraceToken then element fromUtf8Lossy
  else if token = commandBraceToken || isWhitespaceToken token then
    prolog
    element fromUtf8Lossy
  else throw syntaxError
  let token ← la
  if isWhitespaceToken token then whitespaceRun
  else if token = commandBraceToken then prologMiscBrace false
  else throw syntaxError
  if (← la) ≠ tokenEof then throw syntaxError
  let p ← get
  set { p with root := none }
  return ⟨"", "", [], [], p.root.toList⟩

end XmlParser

def xmlTree (fromUtf8Lossy : List UInt8 → String) (data : List UInt8) : Except XmlError Document := do
  let (document, _) ← (XmlParser.document fromUtf8Lossy).run (.new data)
  match document.children with
  | root :: _ => return ⟨root⟩
  | [] => throw .panic

end GhidraDecompiler.Xml
