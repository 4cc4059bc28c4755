import Mathlib.Data.List.DropRight
import Systrix.Lib.PointerTree

/-!
# DOM nodes

The nodes of `browser/html.h`, their allocation and their lists of children.
-/

namespace Systrix.Html

open PointerTree

abbrev Bytes := List UInt8

/-- A character constant. -/
def ch (c : Char) : UInt8 := c.toNat.toUInt8

/-- A string constant. -/
def str (s : String) : Bytes := s.toList.map ch

def domMaxAttrs : Nat := 16

def domMaxChildren : Nat := 128

def domTagMax : Nat := 32

def domAttrMax : Nat := 64

def domTextMax : Nat := 4096

/-- `DomAttr`; strings are the bytes before their terminator. -/
structure DomAttr where
  name : Bytes
  value : Bytes
  deriving DecidableEq

/-- The constants for the field `type`. -/
inductive DomType where
  | element
  | text
  | comment
  | doctype
  deriving DecidableEq

/-- A node by the number of the call of `malloc` that returned it. -/
abbrev NodeId := Nat

/-- `DomNode`, without the computed style.  The counts are those of the lists. -/
structure DomNode where
  type : DomType
  tag : Bytes
  text : Bytes
  attrs : List DomAttr
  children : List NodeId
  parent : Option NodeId
  deriving DecidableEq

/-- A node after `dom_alloc` and the store to `type`. -/
def DomNode.blank (type : DomType) : DomNode := ⟨type, [], [], [], [], none⟩

/-- An element without children. -/
def DomNode.element (tag : Bytes) (attrs : List DomAttr) (text : Bytes) : DomNode :=
  { blank .element with tag := tag, attrs := attrs, text := text }

/-- A place in a buffer: how many elements the buffer has, and the index that is written. -/
structure Write where
  size : Nat
  index : Nat
  deriving DecidableEq

/-- The parser and the memory it works on. -/
structure HtmlParser where
  /-- `p->pos` -/
  pos : Nat
  nodes : Heap DomNode
  /-- Calls of `malloc` so far. -/
  mallocs : Nat
  /-- Where the parser stood before, the last position first. -/
  positions : List Nat
  /-- Where terminators of strings and elements of arrays were written, the last one first.  A
  terminator is behind all other bytes of its string. -/
  writes : List Write

namespace HtmlParser

/-- The parser stands elsewhere. -/
def at_ (s : HtmlParser) (pos : Nat) : HtmlParser := { s with pos := pos, positions := s.pos :: s.positions }

/-- Something is written. -/
def write (s : HtmlParser) (size index : Nat) : HtmlParser := { s with writes := ⟨size, index⟩ :: s.writes }

/-- A node is stored. -/
def set (s : HtmlParser) (n : NodeId) (node : DomNode) : HtmlParser :=
  { s with nodes := Function.update s.nodes n (some node) }

/-- `malloc` is called. -/
def called (s : HtmlParser) : HtmlParser := { s with mallocs := s.mallocs + 1 }

@[simp] theorem pos_called (s : HtmlParser) : s.called.pos = s.pos := rfl

@[simp] theorem pos_at_ (s : HtmlParser) (pos : Nat) : (s.at_ pos).pos = pos := rfl

@[simp] theorem pos_write (s : HtmlParser) (size index : Nat) : (s.write size index).pos = s.pos := rfl

@[simp] theorem pos_set (s : HtmlParser) (n : NodeId) (node : DomNode) : (s.set n node).pos = s.pos := rfl

theorem set_self (s : HtmlParser) (n : NodeId) (node : DomNode) : (s.set n node).nodes n = some node :=
  Function.update_self ..

theorem set_of_ne {n m : NodeId} (other : m ≠ n) (s : HtmlParser) (node : DomNode) :
    (s.set n node).nodes m = s.nodes m := Function.update_of_ne other ..

end HtmlParser

/-- `dom_alloc`, with the type that its callers store; `malloc` says which calls get memory. -/
def domAlloc (malloc : Nat → Bool) (type : DomType) (s : HtmlParser) : Option NodeId × HtmlParser :=
  if malloc s.mallocs then (some s.mallocs, s.called.set s.mallocs (.blank type)) else (none, s.called)

theorem domAlloc_some {malloc : Nat → Bool} {s : HtmlParser} (memory : malloc s.mallocs = true) (type : DomType) :
    domAlloc malloc type s = (some s.mallocs, s.called.set s.mallocs (.blank type)) := if_pos memory

theorem domAlloc_none {malloc : Nat → Bool} {s : HtmlParser} (full : malloc s.mallocs = false) (type : DomType) :
    domAlloc malloc type s = (none, s.called) := if_neg (ne_true_of_eq_false full)

def domFreeTree (fuel : Nat) (s : HtmlParser) (n : NodeId) : Option HtmlParser :=
  match freeTree DomNode.children fuel s.nodes n with
  | none => none
  | some nodes => some { s with nodes := nodes }

/-- `hp_add_child` for a node that was just parsed. -/
def hpAddChild (fuel : Nat) (s : HtmlParser) (parent child : NodeId) : Option HtmlParser :=
  match s.nodes parent, s.nodes child with
  | some pnode, some cnode =>
      if domMaxChildren ≤ pnode.children.length then domFreeTree fuel s child
      else
        let s := s.set child { cnode with parent := some parent }
        let s := s.write domMaxChildren pnode.children.length
        some (s.set parent { pnode with children := pnode.children ++ [child] })
  | _, _ => some s

end Systrix.Html

/-!
## HTML parser

`html_parse` of `browser/html.h`.  Loops that only scan run over the bytes from
the position on; loops and calls that parse take fuel, and have no result without.
-/

namespace Systrix.Html

open PointerTree

/-! ## Characters -/

def htmlIsspace (c : UInt8) : Bool := c = ch ' ' || c = 9 || c = 10 || c = 13 || c = 12

def htmlTolower (c : UInt8) : UInt8 := if ch 'A' ≤ c && c ≤ ch 'Z' then c + 32 else c

def htmlIsVoid (tag : Bytes) : Bool :=
  [str "area", str "base", str "br", str "col", str "embed", str "hr", str "img", str "input",
    str "link", str "meta", str "param", str "source", str "track", str "wbr"].contains tag

/-! ## Loops over bytes -/

/-- `while (p->pos < p->len && go(p->src[p->pos])) p->pos++;` -/
def skipWhile (go : UInt8 → Bool) : Bytes → Nat → Nat
  | [], pos => pos
  | c :: rest, pos => if go c then skipWhile go rest (pos + 1) else pos

/-- A byte is stored when there is room for it and the terminator. -/
def push (max : Nat) (buf : Bytes) (c : UInt8) : Bytes := if buf.length < max - 1 then buf ++ [c] else buf

/-- The loop that stores `f` of the bytes while there is room, and passes over all of them. -/
def collect (go : UInt8 → Bool) (f : UInt8 → UInt8) (max : Nat) : Bytes → Nat → Bytes → Nat × Bytes
  | [], pos, buf => (pos, buf)
  | c :: rest, pos, buf => if go c then collect go f max rest (pos + 1) (push max buf (f c)) else (pos, buf)

/-- The loop that stores bytes and ends when there is no more room. -/
def fill (go : UInt8 → Bool) (max : Nat) : Bytes → Nat → Bytes → Nat × Bytes
  | [], pos, buf => (pos, buf)
  | c :: rest, pos, buf =>
      if go c && buf.length < max - 1 then fill go max rest (pos + 1) (buf ++ [c]) else (pos, buf)

section Parser

variable (src : Bytes) (malloc : Nat → Bool)

def hpPeek (pos : Nat) : UInt8 := if pos < src.length then src.getD pos 0 else 0

def hpSkipSpaces (pos : Nat) : Nat := skipWhile htmlIsspace (src.drop pos) pos

/-- The loops to the next `>`. -/
def skipToEnd (pos : Nat) : Nat := skipWhile (· ≠ ch '>') (src.drop pos) pos

/-- The same, and behind it when there is one. -/
def skipPastEnd (pos : Nat) : Nat :=
  let pos := skipToEnd src pos
  if pos < src.length then pos + 1 else pos

/-! ## Attributes -/

/-- The bytes of the name of an attribute. -/
def isNameByte (c : UInt8) : Bool := !(c = ch '=' || c = ch '>' || c = ch '/' || htmlIsspace c || c = 0)

/-- The bytes of a value without quotes. -/
def isValueByte (c : UInt8) : Bool := !(htmlIsspace c || c = ch '>' || c = 0)

/-- The value of an attribute; the position is behind the `=` and spaces. -/
def parseValue (pos : Nat) : Nat × Bytes :=
  let quote := hpPeek src pos
  if quote = ch '"' || quote = ch '\'' then
    let (pos, value) := fill (· ≠ quote) domAttrMax (src.drop (pos + 1)) (pos + 1) []
    (if hpPeek src pos = quote then pos + 1 else pos, value)
  else collect isValueByte id domAttrMax (src.drop pos) pos []

/-- `hp_parse_attrs`; `attrs` are those of the node so far. -/
def hpParseAttrs : Nat → HtmlParser → List DomAttr → Option (HtmlParser × List DomAttr)
  | 0, _, _ => none
  | fuel + 1, s, attrs =>
      if s.pos < src.length then
        let s := s.at_ (hpSkipSpaces src s.pos)
        let c := hpPeek src s.pos
        if c = ch '>' || c = ch '/' || c = 0 then some (s, attrs)
        else if domMaxAttrs ≤ attrs.length then some (s.at_ (skipToEnd src s.pos), attrs)
        else
          let (pos, name) := collect isNameByte htmlTolower domAttrMax (src.drop s.pos) s.pos []
          let s := ((s.at_ pos).write domMaxAttrs attrs.length).write domAttrMax name.length
          if name = [] then some (s, attrs)
          else
            let s := s.at_ (hpSkipSpaces src s.pos)
            if hpPeek src s.pos ≠ ch '=' then
              hpParseAttrs fuel (s.write domAttrMax 0) (attrs ++ [⟨name, []⟩])
            else
              let (pos, value) := parseValue src (hpSkipSpaces src (s.pos + 1))
              hpParseAttrs fuel ((s.at_ pos).write domAttrMax value.length) (attrs ++ [⟨name, value⟩])
      else some (s, attrs)

/-! ## Nodes without children -/

/-- What is left of a text without the spaces around it. -/
def trim (buf : Bytes) : Bytes := (buf.dropWhile htmlIsspace).rdropWhile htmlIsspace

def hpParseText (s : HtmlParser) : Option NodeId × HtmlParser :=
  let (pos, buf) := fill (· ≠ ch '<') domTextMax (src.drop s.pos) s.pos []
  let s := (s.at_ pos).write domTextMax buf.length
  if buf.dropWhile htmlIsspace = [] then (none, s)
  else
    match domAlloc malloc .text s with
    | (none, s) => (none, s)
    | (some n, s) =>
        let text := (trim buf).take (domTextMax - 1)
        (some n, (s.set n { DomNode.blank .text with text := text }).write domTextMax text.length)

/-- The loop of `hp_parse_comment`. -/
def commentLoop : Bytes → Nat → Bytes → Nat × Bytes
  | a :: b :: c :: rest, pos, buf =>
      if a = ch '-' && b = ch '-' && c = ch '>' then (pos + 3, buf)
      else commentLoop (b :: c :: rest) (pos + 1) (push domTextMax buf a)
  | _, pos, buf => (pos, buf)

def hpParseComment (s : HtmlParser) : Option NodeId × HtmlParser :=
  match domAlloc malloc .comment s with
  | (none, s) => (none, s)
  | (some n, s) =>
      let (pos, text) := commentLoop (src.drop s.pos) s.pos []
      (some n, ((s.at_ pos).set n { DomNode.blank .comment with text := text }).write domTextMax text.length)

/-- What follows `<!`. -/
def parseDeclaration (s : HtmlParser) : Option NodeId × HtmlParser :=
  let pos := s.pos + 1
  if pos + 6 < src.length && (src.getD pos 0 = ch 'D' || src.getD pos 0 = ch 'd') &&
      (src.getD (pos + 1) 0 = ch 'O' || src.getD (pos + 1) 0 = ch 'o') then
    match domAlloc malloc .doctype ((s.at_ pos).at_ (skipPastEnd src pos)) with
    | (none, s) => (none, s)
    | (some n, s) =>
        let s := s.set n { DomNode.blank .doctype with tag := str "!doctype" }
        (some n, s.write domTagMax (str "!doctype").length)
  else if pos + 1 < src.length && src.getD pos 0 = ch '-' && src.getD (pos + 1) 0 = ch '-' then
    hpParseComment src malloc ((s.at_ pos).at_ (pos + 2))
  else (none, (s.at_ pos).at_ (skipPastEnd src pos))

/-! ## Script and style -/

/-- The closing tag that ends raw content starts here, in any case. -/
def matchesClose (close : Bytes) (pos : Nat) : Bool :=
  (List.range close.length).all fun k =>
    let sc := src.getD (pos + k) 0
    let cc := close.getD k 0
    sc = cc || (ch 'A' ≤ sc && sc ≤ ch 'Z' && sc + 32 = cc)

/-- The loop over raw content; a style keeps it. -/
def rawLoop (keep : Bool) (close : Bytes) : Bytes → Nat → Bytes → Nat × Bytes
  | [], pos, buf => (pos, buf)
  | c :: rest, pos, buf =>
      if pos + close.length < src.length then
        if matchesClose src close pos then (skipPastEnd src pos, buf)
        else rawLoop keep close rest (pos + 1) (if keep then push domTextMax buf c else buf)
      else (pos, buf)

/-- The buffer `close`: `</` and at most 8 bytes of the tag. -/
def closeTag (tag : Bytes) : Bytes := str "</" ++ tag.take 8

/-! ## Elements -/

/-- The bytes of the name of a tag. -/
def isTagByte (c : UInt8) : Bool := !(htmlIsspace c || c = ch '>' || c = ch '/')

/-- `</` is at the position. -/
def atClose (pos : Nat) : Bool := hpPeek src pos = ch '<' && pos + 1 < src.length && src.getD (pos + 1) 0 = ch '/'

/-- The loop over the children of an element; `parse` is the call of `hp_parse_node`. -/
def hpChildren (parse : HtmlParser → Option (Option NodeId × HtmlParser)) (node : NodeId) :
    Nat → HtmlParser → Option HtmlParser
  | 0, _ => none
  | fuel + 1, s =>
      if s.pos < src.length then
        if atClose src s.pos then some (s.at_ (skipPastEnd src (s.pos + 2)))
        else
          match parse s with
          | none => none
          | some (some child, s) =>
              match hpAddChild s.mallocs s node child with
              | none => none
              | some s => hpChildren parse node fuel s
          | some (none, s) =>
              if atClose src s.pos then some (s.at_ (skipPastEnd src (s.pos + 2)))
              else if s.pos < src.length && hpPeek src s.pos ≠ ch '<' then
                hpChildren parse node fuel (s.at_ (s.pos + 1))
              else hpChildren parse node fuel s
      else some s

/-- A byte is passed if it is there. -/
def skipByte (c : UInt8) (s : HtmlParser) : HtmlParser := if hpPeek src s.pos = c then s.at_ (s.pos + 1) else s

/-- The end of an opening tag. -/
def endOpening (s : HtmlParser) : HtmlParser :=
  skipByte src (ch '>') (skipByte src (ch '/') (s.at_ (hpSkipSpaces src s.pos)))

/-- What follows the opening tag of an element. -/
def parseContent (fuel : Nat) (parse : HtmlParser → Option (Option NodeId × HtmlParser)) (node : NodeId) (tag : Bytes)
    (attrs : List DomAttr) (s : HtmlParser) : Option (Option NodeId × HtmlParser) :=
  if htmlIsVoid tag then some (some node, s)
  else if tag = str "script" || tag = str "style" then
    let s := s.write 12 (closeTag tag).length
    let (pos, text) := rawLoop src (tag = str "style") (closeTag tag) (src.drop s.pos) s.pos []
    some (some node, ((s.at_ pos).write domTextMax text.length).set node (.element tag attrs text))
  else
    match hpChildren src parse node fuel s with
    | none => none
    | some s => some (some node, s)

/-- The rest of an element, when its node is there; the position is behind the `<`. -/
def parseElement (fuel : Nat) (parse : HtmlParser → Option (Option NodeId × HtmlParser)) (node : NodeId)
    (s : HtmlParser) : Option (Option NodeId × HtmlParser) :=
  let (pos, tag) := collect isTagByte htmlTolower domTagMax (src.drop s.pos) s.pos []
  match hpParseAttrs src fuel ((s.at_ pos).write domTagMax tag.length) [] with
  | none => none
  | some (s, attrs) => parseContent src fuel parse node tag attrs (endOpening src (s.set node (.element tag attrs [])))

def hpParseNode : Nat → HtmlParser → Option (Option NodeId × HtmlParser)
  | 0, _ => none
  | fuel + 1, s =>
      if s.pos ≥ src.length then some (none, s)
      else if hpPeek src s.pos ≠ ch '<' then some (hpParseText src malloc s)
      else
        let s := s.at_ (s.pos + 1)
        if hpPeek src s.pos = ch '/' then some (none, s)
        else if hpPeek src s.pos = ch '!' then some (parseDeclaration src malloc s)
        else
          match domAlloc malloc .element s with
          | (none, s) => some (none, s)
          | (some node, s) => parseElement src fuel (hpParseNode fuel) node s

/-- The loop of `html_parse`. -/
def documentLoop (parse : HtmlParser → Option (Option NodeId × HtmlParser)) (root : NodeId) :
    Nat → HtmlParser → Option HtmlParser
  | 0, _ => none
  | fuel + 1, s =>
      if s.pos < src.length then
        match parse s with
        | none => none
        | some (some child, s) =>
            match hpAddChild s.mallocs s root child with
            | none => none
            | some s => documentLoop parse root fuel s
        | some (none, s) =>
            if s.pos < src.length && hpPeek src s.pos ≠ ch '<' then documentLoop parse root fuel (s.at_ (s.pos + 1))
            else documentLoop parse root fuel s
      else some s

end Parser

/-- The bytes before the terminator; there is one behind the list. -/
def cString (bytes : Bytes) : Bytes := bytes.takeWhile (· ≠ 0)

def htmlParse (malloc : Nat → Bool) (fuel : Nat) (html_src : Bytes) : Option (Option NodeId × HtmlParser) :=
  let src := cString html_src
  match domAlloc malloc .element ⟨0, fun _ => none, 0, [], []⟩ with
  | (none, s) => some (none, s)
  | (some root, s) =>
      let s := (s.set root (.element (str "#document") [] [])).write domTagMax (str "#document").length
      match documentLoop src (hpParseNode src malloc fuel) root fuel s with
      | none => none
      | some s => some (some root, s)

end Systrix.Html
