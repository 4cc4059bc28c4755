import Systrix.Html.TreeShape

/-!
# Written trees are read back

A tree that is written out as HTML and parsed is the tree again.
-/

namespace Systrix.Html

open PointerTree

/-! ## Trees and how they are written -/

/-- A document tree without its pointers. -/
inductive DomTree where
  | element (tag : Bytes) (attrs : List DomAttr) (children : List DomTree)
  | text (text : Bytes)
  | comment (text : Bytes)

/-- ` name="value"` -/
def DomAttr.render (attr : DomAttr) : Bytes := ch ' ' :: (attr.name ++ ch '=' :: ch '"' :: (attr.value ++ [ch '"']))

/-- `</tag>`, which void elements do not have. -/
def closing (tag : Bytes) : Bytes := if htmlIsVoid tag then [] else ch '<' :: ch '/' :: (tag ++ [ch '>'])

/-- `<tag` and the attributes; a `>` follows. -/
def opening (tag : Bytes) (attrs : List DomAttr) : Bytes := ch '<' :: (tag ++ attrs.flatMap DomAttr.render)

mutual

/-- The tree as HTML. -/
def DomTree.render : DomTree → Bytes
  | .element tag attrs children => opening tag attrs ++ ch '>' :: (renderAll children ++ closing tag)
  | .text text => text
  | .comment text => str "<!--" ++ (text ++ commentEnd)

def renderAll : List DomTree → Bytes
  | [] => []
  | t :: ts => t.render ++ renderAll ts

end

mutual

/-- The number of nodes. -/
def DomTree.size : DomTree → Nat
  | .element _ _ children => 1 + sizeAll children
  | .text _ => 1
  | .comment _ => 1

def sizeAll : List DomTree → Nat
  | [] => 0
  | t :: ts => t.size + sizeAll ts

end

/-! ## What can be written -/

def DomTree.isText : DomTree → Bool
  | .text _ => true
  | _ => false

/-- No text follows a text. -/
def Apart (ts : List DomTree) : Prop := ts.IsChain fun t u => ¬ (t.isText = true ∧ u.isText = true)

/-- A lower-case letter or a digit. -/
def isTagChar (c : UInt8) : Bool := (ch 'a' ≤ c && c ≤ ch 'z') || (ch '0' ≤ c && c ≤ ch '9')

/-- A name of an element that is parsed by the general rule and fits. -/
structure WritableTag (tag : Bytes) : Prop where
  nonempty : tag ≠ []
  short : tag.length < domTagMax
  chars : ∀ c ∈ tag, isTagChar c = true
  notRaw : tag ≠ str "script" ∧ tag ≠ str "style"

/-- An attribute with a lower-case name and a value without quotes. -/
structure DomAttr.Writable (attr : DomAttr) : Prop where
  nonempty : attr.name ≠ []
  fits : attr.Fits
  name : ∀ c ∈ attr.name, isNameByte c = true ∧ htmlTolower c = c
  value : ∀ c ∈ attr.value, c ≠ ch '"' ∧ c ≠ 0

/-- A text that is not empty and does not begin or end with a space. -/
structure WritableText (text : Bytes) : Prop where
  nonempty : text ≠ []
  short : text.length < domTextMax
  trimmed : (∀ c, text.head? = some c → htmlIsspace c = false) ∧
    ∀ c, text.getLast? = some c → htmlIsspace c = false
  chars : ∀ c ∈ text, c ≠ ch '<' ∧ c ≠ 0

structure WritableComment (text : Bytes) : Prop where
  short : text.length < domTextMax
  chars : ∀ c ∈ text, c ≠ 0
  free : ¬ commentEnd <:+: text

/-- The trees that are read back. -/
inductive DomTree.Writable : DomTree → Prop where
  | element {tag : Bytes} {attrs : List DomAttr} {children : List DomTree} :
      WritableTag tag → attrs.length ≤ domMaxAttrs → (∀ attr ∈ attrs, attr.Writable) →
      (htmlIsVoid tag = true → children = []) → children.length ≤ domMaxChildren → Apart children →
      (∀ t ∈ children, t.Writable) → Writable (.element tag attrs children)
  | text {text : Bytes} : WritableText text → Writable (.text text)
  | comment {text : Bytes} : WritableComment text → Writable (.comment text)

/-! ## Trees in memory -/

/-- The nodes of trees whose nodes are stored from `n` on. -/
def childIds : List DomTree → Nat → List NodeId
  | [], _ => []
  | t :: ts, n => n :: childIds ts (n + t.size)

mutual

/-- The nodes from `n` on are a tree, in the order of the document. -/
def DomTree.Stored (heap : Heap DomNode) : Option NodeId → DomTree → Nat → Prop
  | parent, .element tag attrs children, n =>
      heap n = some { DomNode.element tag attrs [] with children := childIds children (n + 1), parent := parent } ∧
        AllStored heap (some n) children (n + 1)
  | parent, .text text, n => heap n = some { DomNode.blank .text with text := text, parent := parent }
  | parent, .comment text, n => heap n = some { DomNode.blank .comment with text := text, parent := parent }

def AllStored (heap : Heap DomNode) : Option NodeId → List DomTree → Nat → Prop
  | _, [], _ => True
  | parent, t :: ts, n => t.Stored heap parent n ∧ AllStored heap parent ts (n + t.size)

end

theorem DomTree.size_pos (t : DomTree) : 0 < t.size := by
  cases t with
  | element => rw [size]; omega
  | text => exact Nat.one_pos
  | comment => exact Nat.one_pos

section Stored

open DomTree

variable {heap heap' : Heap DomNode}

mutual

/-- A stored tree depends on its nodes only. -/
theorem DomTree.Stored.congr {parent : Option NodeId} : {t : DomTree} → {n : Nat} → t.Stored heap parent n →
    (∀ m, n ≤ m → m < n + t.size → heap' m = heap m) → t.Stored heap' parent n
  | .element _ _ _, n, stored, same =>
      ⟨(same n (Nat.le_refl n) (Nat.lt_add_of_pos_right (size_pos _))).trans stored.1,
        stored.2.congr fun m low high => same m (by omega) (by rw [size]; omega)⟩
  | .text _, n, stored, same => (same n (Nat.le_refl n) (Nat.lt_add_of_pos_right (size_pos _))).trans stored
  | .comment _, n, stored, same => (same n (Nat.le_refl n) (Nat.lt_add_of_pos_right (size_pos _))).trans stored

theorem AllStored.congr {parent : Option NodeId} : {ts : List DomTree} → {n : Nat} → AllStored heap parent ts n →
    (∀ m, n ≤ m → m < n + sizeAll ts → heap' m = heap m) → AllStored heap' parent ts n
  | [], _, _, _ => trivial
  | t :: ts, n, stored, same =>
      ⟨stored.1.congr fun m low high => same m low (by rw [sizeAll]; omega),
        stored.2.congr fun m low high => same m (by omega) (by rw [sizeAll]; omega)⟩

end

end Stored

/-! ## Reading an opening tag -/

section Opening

open HtmlParser

variable {src rest : Bytes} {pos : Nat}

theorem hpSkipSpaces_at {c : UInt8} (at_ : src.drop pos = c :: rest) (notSpace : htmlIsspace c = false) :
    hpSkipSpaces src pos = pos := by
  rw [hpSkipSpaces, at_]
  exact skipWhile_append [] (fun _ member => absurd member List.not_mem_nil) (.cons notSpace rest) pos

/-- A quoted value is read to its closing quote. -/
theorem parseValue_at {value : Bytes} (at_ : src.drop pos = ch '"' :: (value ++ ch '"' :: rest))
    (chars : ∀ c ∈ value, c ≠ ch '"') (short : value.length < domAttrMax) :
    parseValue src pos = (pos + 1 + value.length + 1, value) := by
  obtain ⟨quote, -, behind⟩ := hpPeek_drop at_
  have filled : fill (· ≠ ch '"') domAttrMax (value ++ ch '"' :: rest) (pos + 1) [] =
      (pos + 1 + value.length, [] ++ value) :=
    fill_append (fun c member => decide_eq_true (chars c member)) (.cons (by decide) rest) (pos + 1) (by
      rw [List.length_nil, Nat.zero_add]
      exact short)
  obtain ⟨closed, -, -⟩ := hpPeek_drop (drop_append behind)
  rw [parseValue, quote, if_pos (by decide), behind, filled]
  dsimp only
  rw [if_pos closed, List.nil_append]

theorem isNameByte_iff (c : UInt8) :
    isNameByte c = true ↔ c ≠ ch '=' ∧ c ≠ ch '>' ∧ c ≠ ch '/' ∧ htmlIsspace c = false ∧ c ≠ 0 := by
  rw [isNameByte]
  simp only [Bool.not_eq_true', Bool.or_eq_false_iff, decide_eq_false_iff_not, and_assoc]

/-- One turn of the loop reads one attribute. -/
theorem hpParseAttrs_one {attr : DomAttr} {done : List DomAttr} {s : HtmlParser}
    (at_ : src.drop s.pos = attr.render ++ rest) (writable : attr.Writable) (room : done.length < domMaxAttrs)
    (fuel : Nat) :
    ∃ s', hpParseAttrs src (fuel + 1) s done = hpParseAttrs src fuel s' (done ++ [attr]) ∧
      s'.pos = s.pos + attr.render.length ∧ s'.nodes = s.nodes ∧ s'.mallocs = s.mallocs := by
  rw [DomAttr.render] at at_ ⊢
  simp only [List.append_assoc, List.cons_append, List.nil_append] at at_
  obtain ⟨name, value⟩ := attr
  dsimp only at at_ ⊢
  obtain ⟨c, cs, isName⟩ := List.exists_cons_of_ne_nil writable.nonempty
  dsimp only at isName
  obtain ⟨isSpace, inside, atName⟩ := hpPeek_drop at_
  have nameBytes : ∀ d ∈ name, isNameByte d = true := fun d member => (writable.name d member).1
  have lower : ∀ d ∈ name, htmlTolower d = d := fun d member => (writable.name d member).2
  obtain ⟨-, notEnd, notSlash, notSpace, notZero⟩ := (isNameByte_iff c).mp (nameBytes c (isName ▸ List.mem_cons_self))
  have spaces : hpSkipSpaces src s.pos = s.pos + 1 := by
    rw [hpSkipSpaces, at_]
    refine skipWhile_append [ch ' '] (fun d member => ?_) ?_ s.pos
    · rw [List.mem_singleton.mp member]
      decide
    · rw [isName]
      exact .cons notSpace _
  have first : hpPeek src (s.pos + 1) = c := by
    rw [isName] at atName
    exact (hpPeek_drop atName).1
  have goesOn : ¬ (decide (c = ch '>') || decide (c = ch '/') || decide (c = 0)) = true := by
    simp only [Bool.or_eq_true, decide_eq_true_iff, not_or]
    exact ⟨⟨notEnd, notSlash⟩, notZero⟩
  have collected : collect isNameByte htmlTolower domAttrMax (src.drop (s.pos + 1)) (s.pos + 1) [] =
      (s.pos + 1 + name.length, name) := by
    rw [atName]
    exact collect_append nameBytes lower (.cons (by decide) _) _ (by
      rw [List.length_nil, Nat.zero_add]
      exact writable.fits.1)
  have atEquals := drop_append atName
  obtain ⟨equals, -, atQuote⟩ := hpPeek_drop atEquals
  have read := parseValue_at atQuote (fun d member => (writable.value d member).1) writable.fits.2
  rw [hpParseAttrs, if_pos inside]
  dsimp only
  rw [pos_at_, spaces, first, if_neg goesOn, if_neg (Nat.not_le.mpr room), collected]
  dsimp only
  rw [if_neg writable.nonempty]
  have stays := hpSkipSpaces_at atEquals (by decide)
  have stays' := hpSkipSpaces_at atQuote (by decide)
  simp only [pos_write, pos_at_, stays, equals, ne_eq, not_true, if_false, stays', read]
  refine ⟨_, rfl, ?_, rfl, rfl⟩
  rw [pos_write, pos_at_]
  simp only [List.length_cons, List.length_append, List.length_nil]
  omega

/-- The attributes that are written are read, up to the end of the tag. -/
theorem hpParseAttrs_at {attrs done attrs' : List DomAttr} {fuel : Nat} {s s' : HtmlParser}
    (at_ : src.drop s.pos = attrs.flatMap DomAttr.render ++ ch '>' :: rest) (writable : ∀ attr ∈ attrs, attr.Writable)
    (room : done.length + attrs.length ≤ domMaxAttrs) (found : hpParseAttrs src fuel s done = some (s', attrs')) :
    attrs' = done ++ attrs ∧ s'.pos = s.pos + (attrs.flatMap DomAttr.render).length ∧ s'.nodes = s.nodes ∧
      s'.mallocs = s.mallocs := by
  induction attrs generalizing fuel s done with
  | nil =>
      cases fuel with
      | zero => cases found
      | succ fuel =>
          obtain ⟨isEnd, inside, -⟩ := hpPeek_drop at_
          have stay := hpSkipSpaces_at at_ (by decide)
          rw [hpParseAttrs, if_pos inside] at found
          dsimp only at found
          rw [pos_at_, stay, isEnd, if_pos (by decide)] at found
          obtain ⟨rfl, rfl⟩ := Prod.mk.inj (Option.some.inj found)
          exact ⟨(List.append_nil done).symm, rfl, rfl, rfl⟩
  | cons attr attrs ih =>
      cases fuel with
      | zero => cases found
      | succ fuel =>
          rw [List.flatMap_cons, List.append_assoc] at at_
          rw [List.length_cons] at room
          obtain ⟨s₁, isNext, pos, nodes, mallocs⟩ := hpParseAttrs_one at_ (writable attr List.mem_cons_self)
            (Nat.lt_of_lt_of_le (Nat.lt_add_of_pos_right (Nat.succ_pos _)) room) fuel
          rw [isNext] at found
          have onward : src.drop s₁.pos = attrs.flatMap DomAttr.render ++ ch '>' :: rest := by
            rw [pos]
            exact drop_append at_
          obtain ⟨isAttrs, pos', nodes', mallocs'⟩ := ih onward
            (fun other member => writable other (List.mem_cons_of_mem attr member)) (by
              rw [List.length_append, List.length_singleton]
              omega) found
          refine ⟨?_, ?_, nodes'.trans nodes, mallocs'.trans mallocs⟩
          · rw [isAttrs, List.append_assoc, List.singleton_append]
          · rw [pos', pos, List.flatMap_cons, List.length_append, Nat.add_assoc]

/-- The end of the tag is passed. -/
theorem endOpening_at {s : HtmlParser} (at_ : src.drop s.pos = ch '>' :: rest) :
    (endOpening src s).pos = s.pos + 1 ∧ (endOpening src s).nodes = s.nodes ∧
      (endOpening src s).mallocs = s.mallocs := by
  have isEnd := (hpPeek_drop at_).1
  have stays := hpSkipSpaces_at at_ (by decide)
  have noSlash : skipByte src (ch '/') (s.at_ s.pos) = s.at_ s.pos := by
    rw [skipByte, pos_at_, isEnd]
    exact if_neg (by decide)
  have passed : skipByte src (ch '>') (s.at_ s.pos) = (s.at_ s.pos).at_ (s.pos + 1) := by
    rw [skipByte, pos_at_, isEnd]
    exact if_pos rfl
  rw [endOpening, stays, noSlash, passed]
  exact ⟨rfl, rfl, rfl⟩

end Opening

/-! ## Reading a node -/

/-- Every call of `malloc` gets memory. -/
abbrev hasMemory : Nat → Bool := fun _ => true

theorem domAlloc_memory (type : DomType) (s : HtmlParser) :
    domAlloc hasMemory type s = (some s.mallocs, s.called.set s.mallocs (.blank type)) := rfl

/-- A tree was read into new nodes. -/
structure Read (t : DomTree) (s s' : HtmlParser) : Prop where
  pos : s'.pos = s.pos + t.render.length
  mallocs : s'.mallocs = s.mallocs + t.size
  stored : t.Stored s'.nodes none s.mallocs
  old : ∀ n, n < s.mallocs → s'.nodes n = s.nodes n

/-- A call that has no other results than the trees that are written where it starts. -/
def Reads (src : Bytes) (parse : HtmlParser → Option (Option NodeId × HtmlParser)) (t : DomTree) : Prop :=
  ∀ s rest result, src.drop s.pos = t.render ++ rest → (t.isText = true → Stops (· ≠ ch '<') rest) →
    parse s = some result → ∃ s', result = (some s.mallocs, s') ∧ Read t s s'

section Leaves

open HtmlParser

variable {src : Bytes}

theorem rdropWhile_last (buf : Bytes) (last : ∀ c, buf.getLast? = some c → htmlIsspace c = false) :
    buf.rdropWhile htmlIsspace = buf := by
  refine List.rdropWhile_eq_self_iff.mpr fun nonempty => ?_
  rw [last _ (List.getLast?_eq_some_getLast nonempty)]
  decide

theorem trim_eq {text : Bytes} (writable : WritableText text) : trim text = text := by
  obtain ⟨c, cs, rfl⟩ := List.exists_cons_of_ne_nil writable.nonempty
  have first := writable.trimmed.1 c rfl
  rw [trim, List.dropWhile_cons_of_neg (by rw [first]; decide)]
  exact rdropWhile_last _ writable.trimmed.2

theorem text_head {text : Bytes} (writable : WritableText text) : ∃ c cs, text = c :: cs ∧ c ≠ ch '<' ∧
    htmlIsspace c = false := by
  obtain ⟨c, cs, rfl⟩ := List.exists_cons_of_ne_nil writable.nonempty
  exact ⟨c, cs, rfl, (writable.chars c List.mem_cons_self).1, writable.trimmed.1 c rfl⟩

theorem hpParseNode_text {text : Bytes} (writable : WritableText text) (fuel : Nat) :
    Reads src (hpParseNode src hasMemory fuel) (.text text) := by
  intro s rest result at_ stops found
  cases fuel with
  | zero => cases found
  | succ fuel =>
      rw [DomTree.render] at at_
      have filled : fill (· ≠ ch '<') domTextMax (src.drop s.pos) s.pos [] = (s.pos + text.length, text) := by
        rw [at_]
        exact fill_append (fun c member => decide_eq_true (writable.chars c member).1) (stops rfl) s.pos (by
          rw [List.length_nil, Nat.zero_add]
          exact writable.short)
      obtain ⟨c, cs, isText, notTag, notSpace⟩ := text_head writable
      have atFirst := at_
      rw [isText] at atFirst
      obtain ⟨first, inside, -⟩ := hpPeek_drop atFirst
      have left : text.dropWhile htmlIsspace ≠ [] := by
        rw [isText, List.dropWhile_cons_of_neg (by rw [notSpace]; decide)]
        exact List.cons_ne_nil c cs
      have whole : (trim text).take (domTextMax - 1) = text := by
        rw [trim_eq writable]
        exact List.take_of_length_le (Nat.le_pred_of_lt writable.short)
      rw [hpParseNode, if_neg (Nat.not_le.mpr inside), first, if_pos notTag, hpParseText, filled] at found
      dsimp only at found
      rw [if_neg left, domAlloc_memory] at found
      dsimp only at found
      rw [whole] at found
      obtain rfl := Option.some.inj found
      refine ⟨_, rfl, rfl, rfl, ?_, fun n less => ?_⟩
      · exact set_self ..
      · exact (set_of_ne (Nat.ne_of_lt less) ..).trans (set_of_ne (Nat.ne_of_lt less) ..)

theorem commentStart : str "<!--" = [ch '<', ch '!', ch '-', ch '-'] := by decide

/-- Two dashes after `<!` start a comment. -/
theorem parseDeclaration_comment {s : HtmlParser} {rest : Bytes}
    (at_ : src.drop (s.pos + 1) = ch '-' :: ch '-' :: rest) (malloc : Nat → Bool) :
    parseDeclaration src malloc s = hpParseComment src malloc ((s.at_ (s.pos + 1)).at_ (s.pos + 1 + 2)) := by
  have dash := getD_drop at_
  obtain ⟨-, -, atDash⟩ := hpPeek_drop at_
  have dash' := getD_drop atDash
  obtain ⟨-, inner, -⟩ := hpPeek_drop atDash
  rw [parseDeclaration]
  refine (if_neg ?_).trans (if_pos ?_)
  · rw [dash, show (decide (ch '-' = ch 'D') || decide (ch '-' = ch 'd')) = false by decide, Bool.and_false,
      Bool.false_and]
    exact Bool.false_ne_true
  · rw [dash, dash']
    simp only [inner, decide_true, Bool.and_self]

theorem hpParseNode_comment {text : Bytes} (writable : WritableComment text) (fuel : Nat) :
    Reads src (hpParseNode src hasMemory fuel) (.comment text) := by
  intro s rest result at_ _ found
  cases fuel with
  | zero => cases found
  | succ fuel =>
      rw [DomTree.render, List.append_assoc, List.append_assoc, commentStart] at at_
      obtain ⟨open_, inside, atBang⟩ := hpPeek_drop at_
      obtain ⟨bang, -, atDash⟩ := hpPeek_drop atBang
      obtain ⟨-, -, atDash'⟩ := hpPeek_drop atDash
      obtain ⟨-, -, atText⟩ := hpPeek_drop atDash'
      have read : commentLoop (src.drop (s.pos + 4)) (s.pos + 4) [] = (s.pos + 4 + text.length + 3, text) := by
        rw [show s.pos + 4 = s.pos + 1 + 1 + 1 + 1 from rfl, atText]
        exact commentLoop_append writable.free _ (by
          rw [List.length_nil, Nat.zero_add]
          exact writable.short)
      have declaration : parseDeclaration src hasMemory (s.at_ (s.pos + 1)) =
          hpParseComment src hasMemory (((s.at_ (s.pos + 1)).at_ (s.pos + 2)).at_ (s.pos + 4)) :=
        parseDeclaration_comment (s := s.at_ (s.pos + 1)) atDash hasMemory
      rw [hpParseNode, if_neg (Nat.not_le.mpr inside), open_, if_neg (not_not.mpr rfl)] at found
      dsimp only at found
      rw [pos_at_, bang, if_neg (by decide), if_pos rfl, declaration, hpParseComment,
        domAlloc_memory] at found
      dsimp only at found
      rw [pos_set, pos_called, pos_at_, read] at found
      obtain rfl := Option.some.inj found
      refine ⟨_, rfl, ?_, rfl, ?_, fun n less => ?_⟩
      · rw [DomTree.render, List.length_append, List.length_append, commentStart]
        change s.pos + 4 + text.length + 3 = s.pos + (4 + (text.length + 3))
        omega
      · exact set_self ..
      · exact (set_of_ne (Nat.ne_of_lt less) ..).trans (set_of_ne (Nat.ne_of_lt less) ..)

end Leaves

/-! ## Reading children -/

/-- Trees were read and became children of a node. -/
structure ReadAll (p : NodeId) (pnode : DomNode) (ts : List DomTree) (s s' : HtmlParser) : Prop where
  mallocs : s'.mallocs = s.mallocs + sizeAll ts
  parent : s'.nodes p = some { pnode with children := pnode.children ++ childIds ts s.mallocs }
  stored : AllStored s'.nodes (some p) ts s.mallocs
  old : ∀ n, n < s.mallocs → n ≠ p → s'.nodes n = s.nodes n

namespace ReadAll

variable {p : NodeId} {pnode : DomNode} {t : DomTree} {ts : List DomTree} {s s' s'' : HtmlParser}

theorem nil (found : s.nodes p = some pnode) : ReadAll p pnode [] s s where
  mallocs := rfl
  parent := by
    rw [found, childIds, List.append_nil]
  stored := trivial
  old := fun _ _ _ => rfl

/-- One child and then the others. -/
theorem cons (old : p < s.mallocs) (first : ReadAll p pnode [t] s s')
    (others : ReadAll p { pnode with children := pnode.children ++ [s.mallocs] } ts s' s'') :
    ReadAll p pnode (t :: ts) s s'' := by
  have later : s'.mallocs = s.mallocs + t.size := first.mallocs
  refine ⟨?_, ?_, ⟨?_, ?_⟩, fun n less other => ?_⟩
  · rw [others.mallocs, later, sizeAll, Nat.add_assoc]
  · rw [others.parent, later, childIds, List.append_assoc, List.singleton_append]
  · refine first.stored.1.congr fun m low high => others.old m (by omega) ?_
    exact Nat.ne_of_gt (Nat.lt_of_lt_of_le old low)
  · rw [← later]
    exact others.stored
  · rw [others.old n (by omega) other, first.old n less other]

end ReadAll

/-- A tree that was read gets its parent. -/
theorem DomTree.Stored.link {heap heap' : Heap DomNode} {t : DomTree} {n : Nat} (stored : t.Stored heap none n)
    (p : NodeId) {node : DomNode} (found : heap n = some node) (linked : heap' n = some { node with parent := some p })
    (same : ∀ m, m ≠ n → n ≤ m → heap' m = heap m) : t.Stored heap' (some p) n := by
  cases t with
  | element tag attrs children =>
      obtain rfl := Option.some.inj (stored.1.symm.trans found)
      refine ⟨linked, stored.2.congr fun m low _ => ?_⟩
      exact same m (Nat.ne_of_gt low) (Nat.le_of_succ_le low)
  | text text =>
      obtain rfl := Option.some.inj (Eq.trans (Eq.symm stored) found)
      exact linked
  | comment text =>
      obtain rfl := Option.some.inj (Eq.trans (Eq.symm stored) found)
      exact linked

theorem DomTree.Stored.live {heap : Heap DomNode} {parent : Option NodeId} {t : DomTree} {n : Nat}
    (stored : t.Stored heap parent n) : ∃ node, heap n = some node := by
  cases t with
  | element tag attrs children => exact ⟨_, stored.1⟩
  | text text => exact ⟨_, stored⟩
  | comment text => exact ⟨_, stored⟩

section Children

open HtmlParser

variable {src : Bytes} {parse : HtmlParser → Option (Option NodeId × HtmlParser)}

theorem hpAddChild_read {t : DomTree} {s s' : HtmlParser} {p : NodeId} {pnode : DomNode} (read : Read t s s')
    (found : s.nodes p = some pnode) (old : p < s.mallocs) (room : pnode.children.length < domMaxChildren)
    (fuel : Nat) :
    ∃ s'', hpAddChild fuel s' p s.mallocs = some s'' ∧ s''.pos = s'.pos ∧ ReadAll p pnode [t] s s'' := by
  obtain ⟨cnode, foundC⟩ := read.stored.live
  have notChild : p ≠ s.mallocs := Nat.ne_of_lt old
  have isNode := (read.old p old).trans found
  rw [hpAddChild, isNode, foundC]
  dsimp only
  rw [if_neg (Nat.not_le.mpr room)]
  refine ⟨_, rfl, rfl, read.mallocs, set_self .., ⟨?_, trivial⟩, fun n less other => ?_⟩
  · refine read.stored.link p foundC ?_ fun m other low => ?_
    · exact (set_of_ne notChild.symm ..).trans (set_self ..)
    · have notParent : m ≠ p := Nat.ne_of_gt (Nat.lt_of_lt_of_le old low)
      exact (set_of_ne notParent ..).trans (set_of_ne other ..)
  · exact (set_of_ne other ..).trans ((set_of_ne (Nat.ne_of_lt less) ..).trans (read.old n less))

/-- A byte that is not a letter or digit is another byte. -/
theorem ne_of_isTagChar {c d : UInt8} (isChar : isTagChar c = true) (other : isTagChar d = false) : c ≠ d := by
  rintro rfl
  exact Bool.false_ne_true (other.symm.trans isChar)

theorem isTagByte_of_isTagChar {c : UInt8} (isChar : isTagChar c = true) : isTagByte c = true := by
  have other {d : UInt8} (notChar : isTagChar d = false) : decide (c = d) = false :=
    decide_eq_false (ne_of_isTagChar isChar notChar)
  rw [isTagByte, htmlIsspace, other (by decide), other (by decide), other (by decide), other (by decide),
    other (by decide), other (by decide), other (by decide)]
  decide

theorem htmlTolower_of_isTagChar {c : UInt8} (isChar : isTagChar c = true) : htmlTolower c = c := by
  rw [htmlTolower]
  refine if_neg fun upper => ?_
  rw [Bool.and_eq_true, decide_eq_true_iff, decide_eq_true_iff, UInt8.le_iff_toNat_le, UInt8.le_iff_toNat_le] at upper
  rw [isTagChar, Bool.or_eq_true, Bool.and_eq_true, Bool.and_eq_true] at isChar
  simp only [decide_eq_true_iff, UInt8.le_iff_toNat_le] at isChar
  have values : (ch 'A').toNat = 65 ∧ (ch 'Z').toNat = 90 ∧ (ch 'a').toNat = 97 ∧ (ch 'z').toNat = 122 ∧
    (ch '0').toNat = 48 ∧ (ch '9').toNat = 57 := by decide
  omega

theorem render_head {t : DomTree} (writable : t.Writable) :
    ∃ c cs, t.render = c :: cs ∧ (t.isText = false → c = ch '<') := by
  cases writable with
  | element => exact ⟨_, _, rfl, fun _ => rfl⟩
  | @text text writable =>
      obtain ⟨c, cs, isText, -⟩ := text_head writable
      exact ⟨c, cs, isText, fun notText => by cases notText⟩
  | comment => exact ⟨_, _, by rw [DomTree.render, commentStart]; rfl, fun _ => rfl⟩

/-- No written tree starts like a closing tag. -/
theorem atClose_render {t : DomTree} (writable : t.Writable) {pos : Nat} {rest : Bytes}
    (at_ : src.drop pos = t.render ++ rest) : atClose src pos = false := by
  have notTag {c : UInt8} {cs : Bytes} (isRender : t.render = c :: cs) (notTag : c ≠ ch '<') :
      atClose src pos = false := by
    rw [isRender] at at_
    rw [atClose, (hpPeek_drop at_).1, decide_eq_false notTag, Bool.false_and, Bool.false_and]
  have notSlash {c : UInt8} {cs : Bytes} (isRender : t.render = ch '<' :: c :: cs) (notSlash : c ≠ ch '/') :
      atClose src pos = false := by
    rw [isRender] at at_
    rw [atClose, getD_drop (hpPeek_drop at_).2.2, decide_eq_false notSlash, Bool.and_false]
  cases writable with
  | @element tag attrs children writable =>
      obtain ⟨c, cs, isTag⟩ := List.exists_cons_of_ne_nil writable.nonempty
      obtain ⟨more, isRender⟩ : ∃ more, (DomTree.element tag attrs children).render = ch '<' :: c :: more := ⟨_, by
        rw [DomTree.render, opening, isTag]
        rfl⟩
      exact notSlash isRender (ne_of_isTagChar (writable.chars c (isTag ▸ List.mem_cons_self)) (by decide))
  | text writable =>
      obtain ⟨c, cs, isText, isNot, -⟩ := text_head writable
      exact notTag isText isNot
  | @comment text =>
      obtain ⟨more, isRender⟩ : ∃ more, (DomTree.comment text).render = ch '<' :: ch '!' :: more := ⟨_, by
        rw [DomTree.render, commentStart]
        rfl⟩
      exact notSlash isRender (by decide)

/-- What follows a text is not a text. -/
theorem stops_after {t : DomTree} {ts : List DomTree} (apart : Apart (t :: ts)) (writable : ∀ u ∈ ts, u.Writable)
    (isText : t.isText = true) {tail : Bytes} (stops : Stops (· ≠ ch '<') tail) :
    Stops (· ≠ ch '<') (renderAll ts ++ tail) := by
  cases ts with
  | nil => exact stops
  | cons u us =>
      have notText : u.isText = false := by
        have apart' := (List.isChain_cons_cons.mp apart).1
        exact eq_false_of_ne_true fun isText' => apart' ⟨isText, isText'⟩
      obtain ⟨c, cs, isRender, first⟩ := render_head (writable u List.mem_cons_self)
      rw [renderAll, isRender, first notText]
      exact .cons (by decide) _

/-- The closing tag of an element that is not void ends its children. -/
theorem atClose_closing {tag rest : Bytes} {pos : Nat} (chars : ∀ c ∈ tag, isTagChar c = true)
    (at_ : src.drop pos = ch '<' :: ch '/' :: (tag ++ ch '>' :: rest)) :
    pos < src.length ∧ atClose src pos = true ∧ skipPastEnd src (pos + 2) = pos + (2 + (tag.length + 1)) := by
  obtain ⟨open_, inside, atSlash⟩ := hpPeek_drop at_
  obtain ⟨-, inner, atTag⟩ := hpPeek_drop atSlash
  have toEnd : skipToEnd src (pos + 2) = pos + 2 + tag.length := by
    rw [skipToEnd, show src.drop (pos + 2) = tag ++ ch '>' :: rest from atTag]
    exact skipWhile_append tag (fun c member => decide_eq_true (ne_of_isTagChar (chars c member) (by decide)))
      (.cons (by decide) rest) (pos + 2)
  obtain ⟨-, behind, -⟩ := hpPeek_drop (drop_append atTag)
  refine ⟨inside, ?_, ?_⟩
  · rw [atClose, open_, getD_drop atSlash, decide_eq_true inner]
    decide
  · rw [skipPastEnd, toEnd, if_pos behind]
    omega

/-- A turn of a loop over trees reads the first of them. -/
theorem turn_read {t : DomTree} {ts : List DomTree} (reads : Reads src parse t) (writable : ∀ u ∈ ts, u.Writable)
    (apart : Apart (t :: ts)) {tail : Bytes} (stops : Stops (· ≠ ch '<') tail) {p : NodeId} {pnode : DomNode}
    {s : HtmlParser} {result : Option NodeId × HtmlParser} (at_ : src.drop s.pos = renderAll (t :: ts) ++ tail)
    (found : s.nodes p = some pnode) (old : p < s.mallocs) (room : pnode.children.length < domMaxChildren)
    (parsed : parse s = some result) :
    ∃ s₁ s₂, result = (some s.mallocs, s₁) ∧ hpAddChild s₁.mallocs s₁ p s.mallocs = some s₂ ∧
      s₂.pos = s.pos + t.render.length ∧ ReadAll p pnode [t] s s₂ := by
  rw [renderAll, List.append_assoc] at at_
  obtain ⟨s₁, isResult, read⟩ := reads s _ result at_ (fun isText => stops_after apart writable isText stops) parsed
  obtain ⟨s₂, added, samePos, first⟩ := hpAddChild_read read found old room s₁.mallocs
  exact ⟨s₁, s₂, isResult, added, samePos.trans read.pos, first⟩

/-- The loop over children reads the trees that are written, and then the closing tag. -/
theorem hpChildren_read {ts : List DomTree} (reads : ∀ t ∈ ts, Reads src parse t) (writable : ∀ t ∈ ts, t.Writable)
    (apart : Apart ts) {tag rest : Bytes} (chars : ∀ c ∈ tag, isTagChar c = true) {p : NodeId} {pnode : DomNode}
    {fuel : Nat} {s s' : HtmlParser}
    (at_ : src.drop s.pos = renderAll ts ++ ch '<' :: ch '/' :: (tag ++ ch '>' :: rest))
    (found : s.nodes p = some pnode) (old : p < s.mallocs) (room : pnode.children.length + ts.length ≤ domMaxChildren)
    (isResult : hpChildren src parse p fuel s = some s') :
    s'.pos = s.pos + ((renderAll ts).length + (2 + (tag.length + 1))) ∧ ReadAll p pnode ts s s' := by
  induction ts generalizing fuel s pnode with
  | nil =>
      cases fuel with
      | zero => cases isResult
      | succ fuel =>
          obtain ⟨inside, close, skipped⟩ := atClose_closing chars at_
          rw [hpChildren, if_pos inside, if_pos close, skipped] at isResult
          obtain rfl := Option.some.inj isResult
          have none := ReadAll.nil found
          refine ⟨?_, none.mallocs, none.parent, none.stored, none.old⟩
          rw [pos_at_, renderAll, List.length_nil, Nat.zero_add]
  | cons t ts ih =>
      cases fuel with
      | zero => cases isResult
      | succ fuel =>
          have writableT := writable t List.mem_cons_self
          have atTree := at_
          rw [renderAll, List.append_assoc] at atTree
          obtain ⟨c, cs, isRender, -⟩ := render_head writableT
          have inside : s.pos < src.length := (hpPeek_drop (isRender ▸ atTree)).2.1
          rw [hpChildren, if_pos inside, atClose_render writableT atTree, if_neg Bool.false_ne_true] at isResult
          cases parsed : parse s with
          | none =>
              rw [parsed] at isResult
              cases isResult
          | some result =>
              rw [List.length_cons] at room
              have writable' : ∀ u ∈ ts, u.Writable := fun u member => writable u (List.mem_cons_of_mem t member)
              obtain ⟨s₁, s₂, rfl, added, pos, first⟩ := turn_read (reads t List.mem_cons_self) writable' apart
                (.cons (by decide) _) at_ found old (by omega) parsed
              rw [parsed] at isResult
              dsimp only at isResult
              rw [added] at isResult
              have onward : src.drop s₂.pos = renderAll ts ++ ch '<' :: ch '/' :: (tag ++ ch '>' :: rest) := by
                rw [pos]
                exact drop_append atTree
              obtain ⟨pos', others⟩ := ih (fun u member => reads u (List.mem_cons_of_mem t member)) writable'
                (List.IsChain.of_cons apart) onward first.parent
                (Nat.lt_of_lt_of_le old (first.mallocs ▸ Nat.le_add_right ..)) (by
                  rw [childIds, childIds, List.length_append, List.length_singleton]
                  omega) isResult
              refine ⟨?_, .cons old first others⟩
              rw [pos', pos, renderAll, List.length_append]
              omega

/-- The loop over the document reads the trees that are written. -/
theorem documentLoop_read {ts : List DomTree} (reads : ∀ t ∈ ts, Reads src parse t) (writable : ∀ t ∈ ts, t.Writable)
    (apart : Apart ts) {p : NodeId} {pnode : DomNode} {fuel : Nat} {s s' : HtmlParser}
    (isResult : documentLoop src parse p fuel s = some s') (at_ : src.drop s.pos = renderAll ts)
    (found : s.nodes p = some pnode) (old : p < s.mallocs)
    (room : pnode.children.length + ts.length ≤ domMaxChildren) : ReadAll p pnode ts s s' := by
  induction ts generalizing fuel s pnode with
  | nil =>
      cases fuel with
      | zero => cases isResult
      | succ fuel =>
          have ended : ¬ s.pos < src.length := Nat.not_lt.mpr (List.drop_eq_nil_iff.mp at_)
          rw [documentLoop, if_neg ended] at isResult
          obtain rfl := Option.some.inj isResult
          exact .nil found
  | cons t ts ih =>
      cases fuel with
      | zero => cases isResult
      | succ fuel =>
          have atTree := at_
          rw [renderAll] at atTree
          obtain ⟨c, cs, isRender, -⟩ := render_head (writable t List.mem_cons_self)
          have inside : s.pos < src.length := (hpPeek_drop (isRender ▸ atTree)).2.1
          rw [documentLoop, if_pos inside] at isResult
          cases parsed : parse s with
          | none =>
              rw [parsed] at isResult
              cases isResult
          | some result =>
              rw [List.length_cons] at room
              have writable' : ∀ u ∈ ts, u.Writable := fun u member => writable u (List.mem_cons_of_mem t member)
              rw [← List.append_nil (renderAll (t :: ts))] at at_
              obtain ⟨s₁, s₂, rfl, added, pos, first⟩ := turn_read (reads t List.mem_cons_self) writable' apart
                .nil at_ found old (by omega) parsed
              rw [parsed] at isResult
              dsimp only at isResult
              rw [added] at isResult
              have onward : src.drop s₂.pos = renderAll ts := by
                rw [pos]
                exact drop_append atTree
              have others := ih (fun u member => reads u (List.mem_cons_of_mem t member)) writable'
                (List.IsChain.of_cons apart) isResult onward first.parent
                (Nat.lt_of_lt_of_le old (first.mallocs ▸ Nat.le_add_right ..)) (by
                  rw [childIds, childIds, List.length_append, List.length_singleton]
                  omega)
              exact .cons old first others

end Children

/-! ## Reading a tree -/

section Trees

open HtmlParser

variable {src : Bytes}

theorem stops_tag (attrs : List DomAttr) (more : Bytes) :
    Stops isTagByte (attrs.flatMap DomAttr.render ++ ch '>' :: more) := by
  cases attrs with
  | nil => exact .cons (by decide) more
  | cons attr attrs => exact .cons (by decide) _

/-- The opening tag is read. -/
theorem parseElement_opening {tag : Bytes} {attrs : List DomAttr} (writable : WritableTag tag)
    (few : attrs.length ≤ domMaxAttrs) (attributes : ∀ attr ∈ attrs, attr.Writable)
    {parse : HtmlParser → Option (Option NodeId × HtmlParser)} {node : NodeId} {fuel : Nat} {s : HtmlParser}
    {more : Bytes} (at_ : src.drop s.pos = tag ++ (attrs.flatMap DomAttr.render ++ ch '>' :: more))
    {result : Option NodeId × HtmlParser} (found : parseElement src fuel parse node s = some result) :
    ∃ s', parseContent src fuel parse node tag attrs s' = some result ∧
      s'.pos = s.pos + (tag.length + (attrs.flatMap DomAttr.render).length + 1) ∧ src.drop s'.pos = more ∧
      s'.mallocs = s.mallocs ∧ s'.nodes = (s.set node (.element tag attrs [])).nodes := by
  have collected : collect isTagByte htmlTolower domTagMax (src.drop s.pos) s.pos [] = (s.pos + tag.length, tag) := by
    rw [at_]
    exact collect_append (fun c member => isTagByte_of_isTagChar (writable.chars c member))
      (fun c member => htmlTolower_of_isTagChar (writable.chars c member)) (stops_tag attrs more) _ (by
        rw [List.length_nil, Nat.zero_add]
        exact writable.short)
  rw [parseElement, collected] at found
  dsimp only at found
  cases parsed : hpParseAttrs src fuel ((s.at_ (s.pos + tag.length)).write domTagMax tag.length) [] with
  | none =>
      rw [parsed] at found
      cases found
  | some result =>
      obtain ⟨s₁, attrs'⟩ := result
      have atAttrs := drop_append at_
      obtain ⟨isAttrs, pos, nodes, mallocs⟩ := hpParseAttrs_at
        (s := (s.at_ (s.pos + tag.length)).write domTagMax tag.length) atAttrs attributes
        (show ([] : List DomAttr).length + attrs.length ≤ domMaxAttrs from
          (Nat.zero_add attrs.length).le.trans few) parsed
      rw [List.nil_append] at isAttrs
      rw [pos_write, pos_at_] at pos
      subst isAttrs
      have atEnd : src.drop (s₁.set node (.element tag attrs' [])).pos = ch '>' :: more := by
        rw [pos_set, pos]
        exact drop_append atAttrs
      obtain ⟨pos', nodes', mallocs'⟩ := endOpening_at atEnd
      rw [parsed] at found
      rw [pos_set, pos] at pos'
      refine ⟨_, found, ?_, ?_, mallocs'.trans mallocs, ?_⟩
      · rw [pos']
        omega
      · rw [pos']
        exact (hpPeek_drop (pos ▸ atEnd)).2.2
      · rw [nodes', HtmlParser.set, HtmlParser.set, nodes]
        rfl

/-- An element is read when the trees in it are. -/
theorem hpParseNode_element {tag : Bytes} {attrs : List DomAttr} {children : List DomTree} (writable : WritableTag tag)
    (few : attrs.length ≤ domMaxAttrs) (attributes : ∀ attr ∈ attrs, attr.Writable)
    (leaf : htmlIsVoid tag = true → children = []) (room : children.length ≤ domMaxChildren) (apart : Apart children)
    (inner : ∀ t ∈ children, t.Writable) (fuel : Nat)
    (reads : ∀ t ∈ children, Reads src (hpParseNode src hasMemory fuel) t) :
    Reads src (hpParseNode src hasMemory (fuel + 1)) (.element tag attrs children) := by
  intro s rest result at_ _ found
  rw [DomTree.render, opening] at at_
  simp only [List.append_assoc, List.cons_append] at at_
  obtain ⟨open_, inside, atTag⟩ := hpPeek_drop at_
  obtain ⟨c, cs, isTag⟩ := List.exists_cons_of_ne_nil writable.nonempty
  have isChar : isTagChar c = true := writable.chars c (isTag ▸ List.mem_cons_self)
  have first : hpPeek src (s.pos + 1) = c := by
    rw [isTag] at atTag
    exact (hpPeek_drop atTag).1
  rw [hpParseNode, if_neg (Nat.not_le.mpr inside), open_, if_neg (not_not.mpr rfl)] at found
  dsimp only at found
  rw [pos_at_, first, if_neg (ne_of_isTagChar isChar (by decide)), if_neg (ne_of_isTagChar isChar (by decide)),
    domAlloc_memory] at found
  obtain ⟨s₁, isContent, pos, atContent, mallocs, nodes⟩ := parseElement_opening writable few attributes
    (s := (s.at_ (s.pos + 1)).called.set s.mallocs (.blank .element)) atTag found
  rw [pos_set, pos_called, pos_at_] at pos
  have one : s₁.mallocs = s.mallocs + 1 := mallocs
  have isNode : s₁.nodes s.mallocs = some (.element tag attrs []) := by
    rw [nodes]
    exact set_self ..
  have same : ∀ n, n < s.mallocs → s₁.nodes n = s.nodes n := fun n less => by
    rw [nodes]
    exact (set_of_ne (Nat.ne_of_lt less) ..).trans (set_of_ne (Nat.ne_of_lt less) ..)
  have length : (DomTree.element tag attrs children).render.length =
      1 + (tag.length + (attrs.flatMap DomAttr.render).length + 1) +
        ((renderAll children).length + (closing tag).length) := by
    rw [DomTree.render, opening]
    simp only [List.length_append, List.length_cons]
    omega
  change parseContent src fuel _ s.mallocs tag attrs s₁ = some result at isContent
  rw [parseContent] at isContent
  cases isVoid : htmlIsVoid tag with
  | true =>
      obtain rfl := leaf isVoid
      rw [if_pos isVoid] at isContent
      obtain rfl := Option.some.inj isContent
      have none : (renderAll []).length = 0 ∧ (closing tag).length = 0 := by
        rw [closing, if_pos isVoid]
        exact ⟨rfl, rfl⟩
      refine ⟨s₁, rfl, ?_, one, ⟨isNode, trivial⟩, same⟩
      rw [pos, length, none.1, none.2]
      omega
  | false =>
      have notRaw : ¬ (decide (tag = str "script") || decide (tag = str "style")) = true := by
        simp only [Bool.or_eq_true, decide_eq_true_iff, not_or]
        exact writable.notRaw
      have isClosing : closing tag = ch '<' :: ch '/' :: (tag ++ [ch '>']) := if_neg (ne_true_of_eq_false isVoid)
      rw [if_neg (ne_true_of_eq_false isVoid), if_neg notRaw] at isContent
      cases loop : hpChildren src (hpParseNode src hasMemory fuel) s.mallocs fuel s₁ with
      | none =>
          rw [loop] at isContent
          cases isContent
      | some s₂ =>
          rw [loop] at isContent
          obtain rfl := Option.some.inj isContent
          have atChildren : src.drop s₁.pos = renderAll children ++ ch '<' :: ch '/' :: (tag ++ ch '>' :: rest) := by
            rw [atContent, isClosing]
            simp only [List.append_assoc, List.cons_append, List.nil_append]
          obtain ⟨pos', read⟩ := hpChildren_read reads inner apart writable.chars atChildren isNode
            (one ▸ Nat.lt_succ_self s.mallocs) (by
              change 0 + children.length ≤ domMaxChildren
              rw [Nat.zero_add]
              exact room) loop
          have ended : (closing tag).length = 2 + (tag.length + 1) := by
            rw [isClosing]
            simp only [List.length_cons, List.length_append, List.length_nil]
            omega
          refine ⟨s₂, rfl, ?_, ?_, ⟨?_, ?_⟩, fun n less => ?_⟩
          · rw [pos', pos, length, ended]
            omega
          · rw [read.mallocs, one, DomTree.size, Nat.add_assoc]
          · rw [read.parent, one]
            rfl
          · rw [← one]
            exact read.stored
          · exact (read.old n (one ▸ Nat.lt_succ_of_lt less) (Nat.ne_of_lt less)).trans (same n less)

theorem hpParseNode_read {t : DomTree} (writable : t.Writable) (fuel : Nat) :
    Reads src (hpParseNode src hasMemory fuel) t := by
  induction writable generalizing fuel with
  | element writable few attributes leaf room apart inner ih =>
      cases fuel with
      | zero =>
          intro s rest result at_ stops found
          cases found
      | succ fuel =>
          exact hpParseNode_element writable few attributes leaf room apart inner fuel fun t member => ih t member fuel
  | text writable => exact hpParseNode_text writable fuel
  | comment writable => exact hpParseNode_comment writable fuel

/-! ## Documents -/

/-- Trees that can be the children of a document. -/
structure WritableDocument (ts : List DomTree) : Prop where
  few : ts.length ≤ domMaxChildren
  apart : Apart ts
  trees : ∀ t ∈ ts, t.Writable

theorem renderAll_chars {ts : List DomTree} (chars : ∀ t ∈ ts, ∀ c ∈ t.render, c ≠ 0) : ∀ c ∈ renderAll ts, c ≠ 0 := by
  induction ts with
  | nil => exact fun c member => absurd member List.not_mem_nil
  | cons t ts ih =>
      intro c member
      rw [renderAll, List.mem_append] at member
      rcases member with first | others
      · exact chars t List.mem_cons_self c first
      · exact ih (fun u member => chars u (List.mem_cons_of_mem t member)) c others

theorem DomAttr.render_chars {attr : DomAttr} (writable : attr.Writable) : ∀ c ∈ attr.render, c ≠ 0 := by
  intro c member
  rw [render] at member
  simp only [List.mem_cons, List.mem_append, List.not_mem_nil, or_false] at member
  rcases member with rfl | name | rfl | rfl | value | rfl
  · decide
  · exact ((isNameByte_iff c).mp (writable.name c name).1).2.2.2.2
  · decide
  · decide
  · exact (writable.value c value).2
  · decide

theorem opening_chars {tag : Bytes} (writable : WritableTag tag) {attrs : List DomAttr}
    (attributes : ∀ attr ∈ attrs, attr.Writable) : ∀ c ∈ opening tag attrs, c ≠ 0 := by
  intro c member
  rw [opening, List.mem_cons, List.mem_append, List.mem_flatMap] at member
  rcases member with rfl | name | ⟨attr, isAttr, inside⟩
  · decide
  · exact ne_of_isTagChar (writable.chars c name) (by decide)
  · exact DomAttr.render_chars (attributes attr isAttr) c inside

theorem closing_chars {tag : Bytes} (writable : WritableTag tag) : ∀ c ∈ closing tag, c ≠ 0 := by
  intro c member
  rw [closing] at member
  split at member
  · exact absurd member List.not_mem_nil
  · simp only [List.mem_cons, List.mem_append, List.not_mem_nil, or_false] at member
    rcases member with rfl | rfl | name | rfl
    · decide
    · decide
    · exact ne_of_isTagChar (writable.chars c name) (by decide)
    · decide

/-- What is written has no terminator in it. -/
theorem DomTree.render_chars {t : DomTree} (writable : t.Writable) : ∀ c ∈ t.render, c ≠ 0 := by
  induction writable with
  | @element tag attrs children writable few attributes leaf room apart inner ih =>
      intro c member
      rw [render, List.mem_append, List.mem_cons, List.mem_append] at member
      rcases member with start | rfl | content | ended
      · exact opening_chars writable attributes c start
      · decide
      · exact renderAll_chars ih c content
      · exact closing_chars writable c ended
  | text writable => exact fun c member => (writable.chars c member).2
  | @comment text writable =>
      intro c member
      rw [render, List.mem_append, List.mem_append] at member
      have fixed : ∀ d ∈ str "<!--" ++ commentEnd, d ≠ 0 := by decide +kernel
      rcases member with start | content | ended
      · exact fixed c (List.mem_append_left _ start)
      · exact writable.chars c content
      · exact fixed c (List.mem_append_right _ ended)

theorem cString_eq {bytes : Bytes} (chars : ∀ c ∈ bytes, c ≠ 0) : cString bytes = bytes :=
  List.takeWhile_eq_self_iff.mpr fun c member => decide_eq_true (chars c member)

/-- Trees that are written out and parsed, with memory for every node, are the children of the document, with
nothing else in it. -/
theorem htmlParse_render (ts : List DomTree) (writable : WritableDocument ts) :
    ∃ s, (∀ fuel, (renderAll ts).length < fuel → htmlParse hasMemory fuel (renderAll ts) = some (some 0, s)) ∧
      s.nodes 0 = some { DomNode.element (str "#document") [] [] with children := childIds ts 1 } ∧
      AllStored s.nodes (some 0) ts 1 ∧ s.mallocs = 1 + sizeAll ts := by
  obtain ⟨root, s, isResult, -⟩ := htmlParse_tree hasMemory (renderAll ts)
  have enough := isResult _ (Nat.lt_succ_self _)
  have noEnd := cString_eq (renderAll_chars fun t member => DomTree.render_chars (writable.trees t member))
  rw [htmlParse, noEnd, domAlloc_memory] at enough
  dsimp only at enough
  cases loop : documentLoop (renderAll ts) (hpParseNode (renderAll ts) hasMemory (renderAll ts).length.succ) 0
      (renderAll ts).length.succ _ with
  | none =>
      rw [loop] at enough
      cases enough
  | some s' =>
      rw [loop] at enough
      obtain ⟨rfl, rfl⟩ := Prod.mk.inj (Option.some.inj enough)
      have start (s : HtmlParser) (node : DomNode) (size index : Nat) :
          ((s.set 0 node).write size index).nodes 0 = some node := s.set_self 0 node
      have read := documentLoop_read (fun t member => hpParseNode_read (writable.trees t member) _) writable.trees
        writable.apart loop rfl (start ..) Nat.one_pos ((Nat.zero_add ts.length).le.trans writable.few)
      exact ⟨s', isResult, read.parent, read.stored, read.mallocs⟩

/-- `<p class="a">hi<br></p>` and a comment. -/
def sampleTrees : List DomTree :=
  [.element (str "p") [⟨str "class", str "a"⟩] [.text (str "hi"), .element (str "br") [] []], .comment (str "x-")]

theorem sampleTrees_writable : WritableDocument sampleTrees := by
  have br : (DomTree.element (str "br") [] []).Writable := .element (by constructor <;> decide +kernel) (by decide)
    (fun _ member => absurd member List.not_mem_nil) (fun _ => rfl) (by decide) .nil
    (fun _ member => absurd member List.not_mem_nil)
  have hi : (DomTree.text (str "hi")).Writable := .text (by constructor <;> decide +kernel)
  have attr : DomAttr.Writable ⟨str "class", str "a"⟩ := by
    refine ⟨?_, ⟨?_, ?_⟩, ?_, ?_⟩ <;> decide +kernel
  have p : (DomTree.element (str "p") [⟨str "class", str "a"⟩]
      [.text (str "hi"), .element (str "br") [] []]).Writable := by
    refine .element (by constructor <;> decide +kernel) (by decide) ?_ (by decide +kernel) (by decide) ?_ ?_
    · intro other member
      rw [List.mem_singleton.mp member]
      exact attr
    · exact .cons_cons (by decide) (.singleton _)
    · intro t member
      rcases List.mem_pair.mp member with rfl | rfl
      · exact hi
      · exact br
  have comment : (DomTree.comment (str "x-")).Writable := .comment (by constructor <;> decide +kernel)
  refine ⟨by decide, .cons_cons (by decide) (.singleton _), fun t member => ?_⟩
  rcases List.mem_pair.mp member with rfl | rfl
  · exact p
  · exact comment

theorem htmlParse_render_sample :
    ∃ s, (∀ fuel, (renderAll sampleTrees).length < fuel →
        htmlParse hasMemory fuel (renderAll sampleTrees) = some (some 0, s)) ∧
      s.nodes 0 = some { DomNode.element (str "#document") [] [] with children := [1, 4] } ∧
      AllStored s.nodes (some 0) sampleTrees 1 ∧ s.mallocs = 5 :=
  htmlParse_render sampleTrees sampleTrees_writable

end Trees

end Systrix.Html
