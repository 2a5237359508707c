import Mathlib.Data.List.DropRight
import RagPlatform.Exceptions
import RagPlatform.External

/-! Document parsers: bytes to blocks with the page or the heading path they come from. -/

namespace RagPlatform

open Lib

variable (ext : External)

def suffixToType : List (Str × DocumentSourceType) :=
  [(".htm".toList, .html), (".html".toList, .html), (".markdown".toList, .markdown),
    (".md".toList, .markdown), (".pdf".toList, .pdf)]

/-- `str.lower` on the characters whose lower case is ASCII: A–Z and the Kelvin sign. -/
def lower (s : Str) : Str := s.map fun c => if c.toNat = 0x212A then 'k' else c.toLower

/-- `"." + filename.rsplit(".", 1)[-1].lower()`, empty without a dot. -/
def suffixOf (filename : Str) : Str :=
  if '.' ∈ filename then '.' :: lower (filename.reverse.takeWhile (· ≠ '.')).reverse else []

def sourceTypeForFilename (filename : Str) : Except Exn DocumentSourceType :=
  match suffixToType.lookup (suffixOf filename) with
  | some t => .ok t
  | none =>
    let suffix := if suffixOf filename = [] then "(none)".toList else suffixOf filename
    .error <| .unsupportedDocumentType <| "unsupported file extension '".toList ++ suffix ++
      "' (supported: ['.htm', '.html', '.markdown', '.md', '.pdf'])".toList

structure BlockMeta where
  page : Option Nat := none
  headings : Option (List Str) := none
  deriving DecidableEq

structure Block where
  text : Str
  metadata : BlockMeta
  deriving DecidableEq

def pageBlock (page : Str × Nat) : Option Block :=
  let text := Str.strip page.1
  if text = [] then none else some ⟨text, { page := some page.2 }⟩

def parsePdf (raw : Bytes) : Except Exn (List Block) :=
  match ext.pdfReader raw with
  | .error exc => .error (.parse ("invalid PDF: ".toList ++ exc))
  | .ok pages =>
    let blocks := (pages.zipIdx 1).filterMap pageBlock
    if blocks = [] then
      .error (.parse "PDF has no extractable text (scanned image without OCR?)".toList)
    else .ok blocks

/-! ### Headings

The stack of open sections, outermost first. -/

abbrev HeadingStack := List (Nat × Str)

def HeadingStack.push (stack : HeadingStack) (level : Nat) (title : Str) : HeadingStack :=
  stack.rdropWhile (fun h => level ≤ h.1) ++ [(level, title)]

def HeadingStack.path (stack : HeadingStack) : List Str := stack.map Prod.snd

/-- `^(```|~~~)` -/
def isFence (line : Str) : Bool :=
  line.take 3 = ['\x60', '\x60', '\x60'] || line.take 3 = ['~', '~', '~']

/-- The rest of a heading line matches `\s*#*\s*$`. -/
def closesHeading (rest : Str) : Bool :=
  ((rest.dropWhile isSpace).dropWhile (· = '#')).dropWhile isSpace = []

/-- The lazy group `(.+?)` of a heading line: the shortest non-empty prefix that the closing
run may follow. -/
def lazyTitle : Str → Str
  | [] => []
  | c :: rest => if closesHeading rest then [c] else c :: lazyTitle rest

/-- `^(#{1,6})\s+(.+?)\s*#*\s*$`: the level and the stripped title. -/
def matchHeading (line : Str) : Option (Nat × Str) :=
  let level := (line.takeWhile (· = '#')).length
  let rest := line.dropWhile (· = '#')
  let body := rest.dropWhile isSpace
  let spaces := rest.length - body.length
  if level = 0 ∨ 6 < level ∨ spaces = 0 then none
  -- on a blank remainder the pattern gives the title back its last white-space character
  else if body = [] then if spaces = 1 then none else some (level, [])
  else some (level, Str.strip (lazyTitle body))

structure MarkdownScan where
  blocks : List Block := []
  headingStack : HeadingStack := []
  buf : List Str := []
  inFence : Bool := false

namespace MarkdownScan

def flush (scan : MarkdownScan) : MarkdownScan :=
  let text := Str.strip (Str.join ['\n'] scan.buf)
  { scan with
    buf := []
    blocks := if text = [] then scan.blocks
      else scan.blocks ++ [⟨text, { headings := some scan.headingStack.path }⟩] }

def line (scan : MarkdownScan) (line : Str) : MarkdownScan :=
  if isFence line then { scan with inFence := !scan.inFence, buf := scan.buf ++ [line] }
  else
    match if scan.inFence then none else matchHeading line with
    | some (level, title) =>
      let scan := scan.flush
      { scan with headingStack := scan.headingStack.push level title }
    | none => { scan with buf := scan.buf ++ [line] }

end MarkdownScan

def decode (raw : Bytes) : Except Exn Str :=
  match utf8Decode raw with
  | some text => .ok text
  | none => .error (.parse "file is not valid UTF-8 text".toList)

def parseMarkdown (raw : Bytes) : Except Exn (List Block) := do
  let text ← decode raw
  let scan := (Str.splitlines text).foldl MarkdownScan.line {}
  let blocks := scan.flush.blocks
  if blocks = [] then
    .error (.parse "markdown has no body text (headings alone are not content)".toList)
  else .ok blocks

def textTags : List Str := ["p", "li", "pre", "blockquote", "td", "th"].map String.toList

def headingTags : List Str := ["h1", "h2", "h3", "h4", "h5", "h6"].map String.toList

def droppedTags : List Str := ["script", "style", "noscript", "template"].map String.toList

mutual

/-- `decompose` on every tag that is dropped. -/
def Html.prune : Html → List Html
  | .text s => [.text s]
  | .other => [.other]
  | .element name children =>
    if name ∈ droppedTags then [] else [.element name (Html.pruneAll children)]

def Html.pruneAll : List Html → List Html
  | [] => []
  | node :: nodes => node.prune ++ Html.pruneAll nodes

end

mutual

def Html.strings : Html → List Str
  | .text s => [s]
  | .other => []
  | .element _ children => Html.stringsAll children

def Html.stringsAll : List Html → List Str
  | [] => []
  | node :: nodes => node.strings ++ Html.stringsAll nodes

end

/-- `get_text(" ", strip=True)` -/
def getText (children : List Html) : Str :=
  Str.join [' '] (((Html.stringsAll children).map Str.strip).filter (· ≠ []))

structure Tag where
  ancestors : List Str
  name : Str
  children : List Html

mutual

/-- Every tag in document order, with the names of the tags around it. -/
def Html.tags (ancestors : List Str) : Html → List Tag
  | .text _ => []
  | .other => []
  | .element name children =>
    ⟨ancestors, name, children⟩ :: Html.tagsAll (name :: ancestors) children

def Html.tagsAll (ancestors : List Str) : List Html → List Tag
  | [] => []
  | node :: nodes => node.tags ancestors ++ Html.tagsAll ancestors nodes

end

def findAll (names : List Str) (soup : List Html) : List Tag :=
  (Html.tagsAll [] soup).filter (·.name ∈ names)

structure HtmlScan where
  blocks : List Block := []
  headingStack : HeadingStack := []

def HtmlScan.tag (scan : HtmlScan) (el : Tag) : HtmlScan :=
  if el.name ∈ headingTags then
    let title := getText el.children
    if title = [] then scan
    else { scan with headingStack := scan.headingStack.push ((el.name.getD 1 '0').toNat - 48) title }
  else if el.ancestors.any (· ∈ textTags) then scan
  else
    let text := getText el.children
    if text = [] then scan
    else { scan with blocks := scan.blocks ++ [⟨text, { headings := some scan.headingStack.path }⟩] }

def parseHtml (raw : Bytes) : Except Exn (List Block) :=
  match ext.beautifulSoup raw with
  | .error exc => .error (.parse ("invalid HTML: ".toList ++ exc))
  | .ok soup =>
    let scan := (findAll (headingTags ++ textTags) (Html.pruneAll soup)).foldl HtmlScan.tag {}
    if scan.blocks = [] then .error (.parse "HTML has no extractable text content".toList)
    else .ok scan.blocks

def parseDocument (raw : Bytes) : DocumentSourceType → Except Exn (List Block)
  | .pdf => parsePdf ext raw
  | .markdown => parseMarkdown raw
  | .html => parseHtml ext raw

end RagPlatform
