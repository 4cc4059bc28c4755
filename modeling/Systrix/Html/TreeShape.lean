import Systrix.Html.Fuel
import Systrix.Html.Scanning

/-!
# The tree that the parser builds

Whatever the bytes and whichever calls of `malloc` fail, the parser ends, writes
inside its buffers, and leaves a tree of nodes.
-/

namespace Systrix.Html

open PointerTree

/-! ## The invariant -/

/-- The strings of an attribute fit in its buffers. -/
def DomAttr.Fits (attr : DomAttr) : Prop := attr.name.length < domAttrMax ∧ attr.value.length < domAttrMax

/-- The strings and lists of a node fit in its arrays. -/
structure DomNode.Fits (node : DomNode) : Prop where
  tag : node.tag.length < domTagMax
  text : node.text.length < domTextMax
  attrs : node.attrs.length ≤ domMaxAttrs
  attr : ∀ attr ∈ node.attrs, attr.Fits
  children : node.children.length ≤ domMaxChildren

theorem DomNode.blank_fits (type : DomType) : (DomNode.blank type).Fits :=
  ⟨by simp [blank, domTagMax], by simp [blank, domTextMax], Nat.zero_le _,
    fun _ member => absurd member List.not_mem_nil, Nat.zero_le _⟩

/-- The parser is in the source, was nowhere else, wrote inside its buffers, and its nodes are well formed. -/
structure HtmlParser.Valid (len : Nat) (s : HtmlParser) : Prop where
  inside : s.pos ≤ len
  positions : ∀ pos ∈ s.positions, pos ≤ len
  writes : ∀ w ∈ s.writes, w.index < w.size
  fits : ∀ n node, s.nodes n = some node → node.Fits
  fresh : ∀ n, s.mallocs ≤ n → s.nodes n = none

namespace HtmlParser.Valid

variable {len : Nat} {s : HtmlParser}

theorem at_ (valid : s.Valid len) {pos : Nat} (inside : pos ≤ len) : (s.at_ pos).Valid len where
  inside := inside
  positions := fun other member => by
    rcases List.mem_cons.mp member with rfl | before
    · exact valid.inside
    · exact valid.positions other before
  writes := valid.writes
  fits := valid.fits
  fresh := valid.fresh

theorem write (valid : s.Valid len) {size index : Nat} (below : index < size) : (s.write size index).Valid len where
  inside := valid.inside
  positions := valid.positions
  writes := fun w member => by
    rcases List.mem_cons.mp member with rfl | before
    · exact below
    · exact valid.writes w before
  fits := valid.fits
  fresh := valid.fresh

theorem set (valid : s.Valid len) {n : NodeId} {node : DomNode} (old : n < s.mallocs) (fits : node.Fits) :
    (s.set n node).Valid len where
  inside := valid.inside
  positions := valid.positions
  writes := valid.writes
  fits := fun m other found => by
    by_cases same : m = n
    · subst same
      obtain rfl := Option.some.inj ((s.set_self m node).symm.trans found)
      exact fits
    · exact valid.fits m other ((set_of_ne same s node).symm.trans found)
  fresh := fun m new => (set_of_ne (Nat.ne_of_gt (old.trans_le new)) s node).trans (valid.fresh m new)

/-- A call of `malloc` that fails. -/
theorem failed (valid : s.Valid len) : s.called.Valid len where
  inside := valid.inside
  positions := valid.positions
  writes := valid.writes
  fits := valid.fits
  fresh := fun n new => valid.fresh n (Nat.le_of_succ_le new)

end HtmlParser.Valid

/-- The parser moved on, and no node changed. -/
structure Moved (len : Nat) (s s' : HtmlParser) : Prop where
  valid : s'.Valid len
  forward : s.pos ≤ s'.pos
  nodes : s'.nodes = s.nodes
  mallocs : s'.mallocs = s.mallocs

namespace Moved

variable {len : Nat} {s s' s'' : HtmlParser}

theorem refl (valid : s.Valid len) : Moved len s s := ⟨valid, Nat.le_refl s.pos, rfl, rfl⟩

theorem trans (first : Moved len s s') (second : Moved len s' s'') : Moved len s s'' :=
  ⟨second.valid, first.forward.trans second.forward, second.nodes.trans first.nodes, second.mallocs.trans first.mallocs⟩

theorem at_ (moved : Moved len s s') {pos : Nat} (bounds : s'.pos ≤ pos ∧ pos ≤ len) : Moved len s (s'.at_ pos) :=
  ⟨moved.valid.at_ bounds.2, moved.forward.trans bounds.1, moved.nodes, moved.mallocs⟩

/-- One byte is passed. -/
theorem next (moved : Moved len s s') (inside : s'.pos < len) : Moved len s (s'.at_ (s'.pos + 1)) :=
  moved.at_ ⟨Nat.le_succ s'.pos, inside⟩

theorem write (moved : Moved len s s') {size index : Nat} (below : index < size) : Moved len s (s'.write size index) :=
  ⟨moved.valid.write below, moved.forward, moved.nodes, moved.mallocs⟩

end Moved

/-- The nodes from `lo` to `hi` are the tree of a result. -/
def TreeOf (heap : Heap DomNode) (lo hi : Nat) : Option NodeId → Prop
  | none => Unused heap lo hi
  | some root => IsTree DomNode.children DomNode.parent heap lo hi root

/-- Every node but the root is in one list of children, once: that of the node that its parent pointer names. -/
def OneParent (heap : Heap DomNode) (root : Option NodeId) : Prop :=
  ∀ n node, heap n = some node → some n ≠ root → ∃ p pnode, node.parent = some p ∧ heap p = some pnode ∧
    pnode.children.count n = 1 ∧ ∀ q qnode, heap q = some qnode → n ∈ qnode.children → q = p

theorem TreeOf.oneParent {heap : Heap DomNode} {hi : Nat} {result : Option NodeId} (tree : TreeOf heap 0 hi result)
    (fresh : ∀ n, hi ≤ n → heap n = none) : OneParent heap result := by
  intro n node found other
  have below : ∀ {m : Nat} {node : DomNode}, heap m = some node → m < hi := fun {m node} found => by
    by_contra outside
    rw [fresh m (Nat.le_of_not_lt outside)] at found
    cases found
  cases result with
  | none => exact absurd ((tree n (Nat.zero_le n) (below found)).symm.trans found) (Option.some_ne_none _).symm
  | some root =>
      have notRoot : n ≠ root := fun same => other (congrArg some same)
      obtain ⟨p, pnode, isParent, low, high, foundP, member⟩ :=
        tree.up n node (Nat.zero_le n) (below found) found notRoot
      have once := tree.once p pnode low high foundP
      refine ⟨p, pnode, isParent, foundP, List.count_eq_one_of_mem once member, fun q qnode foundQ memberQ => ?_⟩
      obtain ⟨-, -, cnode, foundN, isParent'⟩ := tree.down q qnode (Nat.zero_le q) (below foundQ) foundQ n memberQ
      obtain rfl := Option.some.inj (found.symm.trans foundN)
      exact Option.some.inj (isParent'.symm.trans isParent)

/-- What parsing leaves: the nodes from before, and the new ones as a tree. -/
structure Parsed (len : Nat) (s : HtmlParser) (result : Option NodeId) (s' : HtmlParser) : Prop where
  valid : s'.Valid len
  forward : s.pos ≤ s'.pos
  mallocs : s.mallocs ≤ s'.mallocs
  old : ∀ n, n < s.mallocs → s'.nodes n = s.nodes n
  tree : TreeOf s'.nodes s.mallocs s'.mallocs result

namespace Parsed

open HtmlParser

variable {len : Nat} {s s' s'' : HtmlParser} {result : Option NodeId} {root : NodeId}

/-- Parsing starts behind bytes that were passed. -/
theorem behind (moved : Moved len s s') (parsed : Parsed len s' result s'') : Parsed len s result s'' where
  valid := parsed.valid
  forward := moved.forward.trans parsed.forward
  mallocs := moved.mallocs.symm.trans_le parsed.mallocs
  old := fun n less => by
    rw [← moved.nodes]
    exact parsed.old n (less.trans_eq moved.mallocs.symm)
  tree := by
    rw [← moved.mallocs]
    exact parsed.tree

/-- The parser moves on. -/
theorem moved (parsed : Parsed len s result s') (moved : Moved len s' s'') : Parsed len s result s'' where
  valid := moved.valid
  forward := parsed.forward.trans moved.forward
  mallocs := parsed.mallocs.trans_eq moved.mallocs.symm
  old := fun n less => by
    rw [moved.nodes]
    exact parsed.old n less
  tree := by
    rw [moved.nodes, moved.mallocs]
    exact parsed.tree

/-- Nothing was parsed. -/
theorem nothing (valid : s.Valid len) : Parsed len s none s where
  valid := valid
  forward := Nat.le_refl s.pos
  mallocs := Nat.le_refl s.mallocs
  old := fun _ _ => rfl
  tree := fun _ low high => absurd high (Nat.not_lt.mpr low)

/-- A call of `malloc` failed. -/
theorem failed (valid : s.Valid len) : Parsed len s none s.called where
  valid := valid.failed
  forward := Nat.le_refl s.pos
  mallocs := Nat.le_succ s.mallocs
  old := fun _ _ => rfl
  tree := fun n low _ => valid.fresh n low

/-- The new node while it has no children. -/
theorem set (parsed : Parsed len s (some s.mallocs) s') (one : s'.mallocs = s.mallocs + 1) {node : DomNode}
    (fits : node.Fits) (leaf : node.children = []) (top : node.parent = none) :
    Parsed len s (some s.mallocs) (s'.set s.mallocs node) where
  valid := parsed.valid.set (one ▸ Nat.lt_succ_self s.mallocs) fits
  forward := parsed.forward
  mallocs := parsed.mallocs
  old := fun n less => (set_of_ne (Nat.ne_of_lt less) s' node).trans (parsed.old n less)
  tree := by
    change IsTree _ _ _ _ s'.mallocs _
    rw [one]
    exact .single (s'.set_self s.mallocs node) leaf top

/-- A new node. -/
theorem alloc (valid : s.Valid len) (type : DomType) :
    Parsed len s (some s.mallocs) (s.called.set s.mallocs (.blank type)) where
  valid := valid.failed.set (Nat.lt_succ_self s.mallocs) (DomNode.blank_fits type)
  forward := Nat.le_refl s.pos
  mallocs := Nat.le_succ s.mallocs
  old := fun _ less => set_of_ne (Nat.ne_of_lt less) ..
  tree := .single (set_self ..) rfl rfl

/-- A node and then something that leaves no node. -/
theorem skip (parsed : Parsed len s (some root) s') (next : Parsed len s' none s'') : Parsed len s (some root) s'' where
  valid := next.valid
  forward := parsed.forward.trans next.forward
  mallocs := parsed.mallocs.trans next.mallocs
  old := fun n less => (next.old n (less.trans_le parsed.mallocs)).trans (parsed.old n less)
  tree := (parsed.tree.congr fun n _ => next.old n).extend next.tree next.mallocs

end Parsed

/-! ## Attributes -/

/-- Attributes that fit in a node. -/
structure AttrsFit (attrs : List DomAttr) : Prop where
  few : attrs.length ≤ domMaxAttrs
  fits : ∀ attr ∈ attrs, attr.Fits

theorem AttrsFit.nil : AttrsFit [] := ⟨Nat.zero_le _, fun _ member => absurd member List.not_mem_nil⟩

theorem AttrsFit.add {attrs : List DomAttr} (fit : AttrsFit attrs) (room : attrs.length < domMaxAttrs) {attr : DomAttr}
    (fits : attr.Fits) : AttrsFit (attrs ++ [attr]) where
  few := by
    rw [List.length_append]
    exact room
  fits other member := by
    rcases List.mem_append.mp member with before | last
    · exact fit.fits other before
    · rw [List.mem_singleton.mp last]
      exact fits

open HtmlParser in
/-- A name that is not empty takes the parser on, so that the loop ends. -/
theorem hpParseAttrs_moved {src : Bytes} (fuel : Nat) {s : HtmlParser} {attrs : List DomAttr}
    (valid : s.Valid src.length) (fit : AttrsFit attrs) (enough : src.length < s.pos + fuel) :
    ∃ s' attrs', hpParseAttrs src fuel s attrs = some (s', attrs') ∧ Moved src.length s s' ∧ AttrsFit attrs' := by
  induction fuel generalizing s attrs with
  | zero => exact absurd valid.inside (Nat.not_le.mpr enough)
  | succ fuel ih =>
      rw [hpParseAttrs]
      split
      · have spaces := (Moved.refl valid).at_ (hpSkipSpaces_le src valid.inside)
        dsimp only
        split
        · exact ⟨_, _, rfl, spaces, fit⟩
        split
        · exact ⟨_, _, rfl, spaces.at_ (skipToEnd_le spaces.valid.inside), fit⟩
        rename_i room
        have less : attrs.length < domMaxAttrs := Nat.lt_of_not_le room
        generalize s.at_ (hpSkipSpaces src s.pos) = s₁ at *
        obtain ⟨pos, name, scanned, bounds, length, short⟩ :=
          collect_scan isNameByte htmlTolower spaces.valid.inside (show 0 < domAttrMax by decide)
        rw [scanned]
        dsimp only
        have stored := ((spaces.at_ bounds).write less).write length
        split
        · exact ⟨_, _, rfl, stored, fit⟩
        rename_i named
        have progress : s₁.pos < pos := by
          have longer := List.length_pos_of_ne_nil named
          omega
        have passed := spaces.forward.trans_lt progress
        have skipped := hpSkipSpaces_le src bounds.2
        have behind := stored.at_ skipped
        split
        · have ended := behind.write (show 0 < domAttrMax by decide)
          have fits : DomAttr.Fits ⟨name, []⟩ := ⟨length, show 0 < domAttrMax by decide⟩
          obtain ⟨s', attrs', isRest, moved, fit'⟩ := ih ended.valid (fit.add less fits) (by
            rw [pos_write, pos_at_]
            omega)
          exact ⟨s', attrs', isRest, ended.trans moved, fit'⟩
        · rename_i equals
          simp only [pos_write, pos_at_, ne_eq, not_not] at equals ⊢
          have inner : hpSkipSpaces src pos < src.length := hpPeek_inside (by
            rw [equals]
            decide)
          have beyond := hpSkipSpaces_le src (Nat.succ_le_of_lt inner)
          obtain ⟨last, value, scanned', bounds', length'⟩ := parseValue_scan beyond.2
          have ended := (behind.at_ (⟨beyond.1.trans' (Nat.le_succ _) |>.trans bounds'.1, bounds'.2⟩ :
            hpSkipSpaces src pos ≤ last ∧ last ≤ src.length)).write length'
          have fits : DomAttr.Fits ⟨name, value⟩ := ⟨length, length'⟩
          obtain ⟨s', attrs', isRest, moved, fit'⟩ := ih ended.valid (fit.add less fits) (by
            rw [pos_write, pos_at_]
            omega)
          rw [scanned']
          exact ⟨s', attrs', isRest, ended.trans moved, fit'⟩
      · exact ⟨s, attrs, rfl, Moved.refl valid, fit⟩

/-! ## Nodes without children -/

section Nodes

open HtmlParser

variable {src : Bytes} {malloc : Nat → Bool} {s : HtmlParser}

/-- A node that gets its strings after the allocation. -/
theorem Parsed.leaf {len : Nat} (valid : s.Valid len) (type : DomType) {node : DomNode} (fits : node.Fits)
    (leaf : node.children = []) (top : node.parent = none) :
    Parsed len s (some s.mallocs) ((s.called.set s.mallocs (.blank type)).set s.mallocs node) :=
  (Parsed.alloc valid type).set rfl fits leaf top

theorem hpParseText_parsed (valid : s.Valid src.length) :
    Parsed src.length s (hpParseText src malloc s).1 (hpParseText src malloc s).2 := by
  rw [hpParseText]
  obtain ⟨reached, buf, scanned, bounds, length⟩ :=
    fill_scan (· ≠ ch '<') valid.inside (show 0 < domTextMax by decide)
  rw [scanned]
  dsimp only
  have stored := ((Moved.refl valid).at_ bounds).write length
  split
  · exact .behind stored (.nothing stored.valid)
  · have short : ((trim buf).take (domTextMax - 1)).length < domTextMax := by
      rw [List.length_take]
      exact (Nat.min_le_left ..).trans_lt (show domTextMax - 1 < domTextMax by decide)
    cases memory : malloc s.mallocs with
    | false =>
        rw [domAlloc_none (s := (s.at_ reached).write domTextMax buf.length) memory]
        exact .behind stored (.failed stored.valid)
    | true =>
        have fits : DomNode.Fits { DomNode.blank .text with text := (trim buf).take (domTextMax - 1) } :=
          { DomNode.blank_fits .text with text := short }
        have leaf := Parsed.leaf stored.valid .text fits rfl rfl
        rw [domAlloc_some (s := (s.at_ reached).write domTextMax buf.length) memory]
        exact .behind stored (leaf.moved ((Moved.refl leaf.valid).write short))

theorem hpParseText_progress (inside : s.pos < src.length) (text : hpPeek src s.pos ≠ ch '<') :
    s.pos < (hpParseText src malloc s).2.pos := by
  have progress := @fill_progress (· ≠ ch '<') domTextMax _ (src.drop (s.pos + 1)) s.pos
    (decide_eq_true text) (show 1 < domTextMax by decide)
  rw [← drop_eq_cons inside] at progress
  rw [hpParseText]
  generalize fill _ domTextMax (src.drop s.pos) s.pos [] = result at *
  obtain ⟨reached, buf⟩ := result
  dsimp only at *
  split
  · exact progress
  · cases memory : malloc s.mallocs with
    | false =>
        rw [domAlloc_none (s := (s.at_ reached).write domTextMax buf.length) memory]
        exact progress
    | true =>
        rw [domAlloc_some (s := (s.at_ reached).write domTextMax buf.length) memory]
        exact progress

theorem hpParseComment_parsed (valid : s.Valid src.length) :
    Parsed src.length s (hpParseComment src malloc s).1 (hpParseComment src malloc s).2 := by
  rw [hpParseComment]
  cases memory : malloc s.mallocs with
  | false =>
      rw [domAlloc_none memory]
      exact .failed valid
  | true =>
      have short := commentLoop_length (src.drop s.pos) s.pos (show ([] : Bytes).length < domTextMax by decide)
      have bounds := within valid.inside (commentLoop_le (src.drop s.pos) s.pos [])
      have fits : DomNode.Fits { DomNode.blank .comment with text := (commentLoop (src.drop s.pos) s.pos []).2 } :=
        { DomNode.blank_fits .comment with text := short }
      have leaf := Parsed.leaf valid .comment fits rfl rfl
      rw [domAlloc_some memory]
      exact leaf.moved (((Moved.refl leaf.valid).at_ bounds).write short)

variable (malloc) in
theorem parseDeclaration_parsed (valid : s.Valid src.length) (inside : s.pos < src.length) :
    Parsed src.length s (parseDeclaration src malloc s).1 (parseDeclaration src malloc s).2 := by
  have moved := (Moved.refl valid).next inside
  have behind := moved.at_ (skipPastEnd_le src moved.valid.inside)
  rw [parseDeclaration]
  dsimp only
  split
  · cases memory : malloc s.mallocs with
    | false =>
        rw [domAlloc_none (s := (s.at_ (s.pos + 1)).at_ (skipPastEnd src (s.pos + 1))) memory]
        exact .behind behind (.failed behind.valid)
    | true =>
        have short : (str "!doctype").length < domTagMax := by decide
        have fits : DomNode.Fits { DomNode.blank .doctype with tag := str "!doctype" } :=
          { DomNode.blank_fits .doctype with tag := short }
        have leaf := Parsed.leaf behind.valid .doctype fits rfl rfl
        rw [domAlloc_some (s := (s.at_ (s.pos + 1)).at_ (skipPastEnd src (s.pos + 1))) memory]
        exact .behind behind (leaf.moved ((Moved.refl leaf.valid).write short))
  split
  · rename_i dashes
    have room : s.pos + 1 + 1 < src.length := by
      rw [Bool.and_eq_true, Bool.and_eq_true] at dashes
      exact of_decide_eq_true dashes.1.1
    have bounds : (s.at_ (s.pos + 1)).pos ≤ s.pos + 1 + 2 ∧ s.pos + 1 + 2 ≤ src.length := by
      rw [pos_at_]
      omega
    have start := moved.at_ bounds
    exact .behind start (hpParseComment_parsed start.valid)
  · exact .behind behind (.nothing behind.valid)

end Nodes

/-! ## Children -/

open HtmlParser in
theorem hpAddChild_parsed {len : Nat} {base s s' : HtmlParser} {root child : NodeId}
    (parsed : Parsed len base (some root) s) (next : Parsed len s (some child) s') :
    ∃ s'', hpAddChild s'.mallocs s' root child = some s'' ∧ s''.pos = s'.pos ∧ Parsed len base (some root) s'' := by
  have younger : IsTree DomNode.children DomNode.parent s'.nodes s.mallocs s'.mallocs child := next.tree
  have tree : IsTree DomNode.children DomNode.parent s'.nodes base.mallocs s.mallocs root :=
    parsed.tree.congr fun n _ high => next.old n high
  obtain ⟨node, found, -⟩ := tree.top
  obtain ⟨cnode, foundC, -⟩ := younger.top
  have old : ∀ n, n < base.mallocs → s'.nodes n = base.nodes n := fun n less =>
    (next.old n (less.trans_le parsed.mallocs)).trans (parsed.old n less)
  rw [hpAddChild, found, foundC]
  dsimp only
  split
  · obtain ⟨nodes, freed, gone, kept⟩ := younger.free s'.mallocs (Nat.le_add_left _ _)
    refine ⟨{ s' with nodes := nodes }, by rw [domFreeTree, freed], rfl, ?_⟩
    have valid : ({ s' with nodes := nodes } : HtmlParser).Valid len := {
      inside := next.valid.inside
      positions := next.valid.positions
      writes := next.valid.writes
      fits := fun n other live => by
        by_cases new : s.mallocs ≤ n ∧ n < s'.mallocs
        · exact absurd ((gone n new.1 new.2).symm.trans live) (Option.some_ne_none _).symm
        · exact next.valid.fits n other ((kept n (by omega)).symm.trans live)
      fresh := fun n new => (kept n (.inr new)).trans (next.valid.fresh n new) }
    exact {
      valid := valid
      forward := parsed.forward.trans next.forward
      mallocs := parsed.mallocs.trans next.mallocs
      old := fun n less => (kept n (.inl (less.trans_le parsed.mallocs))).trans (old n less)
      tree := (tree.congr fun n _ high => kept n (.inl high)).extend gone next.mallocs }
  · rename_i room
    have oldRoot : root < s'.mallocs := tree.inside.2.trans_le next.mallocs
    have notSame : child ≠ root := Nat.ne_of_gt (tree.inside.2.trans_le younger.inside.1)
    have fits := next.valid.fits root node found
    have fitsC := next.valid.fits child cnode foundC
    have linked := next.valid.set younger.inside.2
      (⟨fitsC.tag, fitsC.text, fitsC.attrs, fitsC.attr, fitsC.children⟩ :
        DomNode.Fits { cnode with parent := some root })
    have stored := linked.write (Nat.lt_of_not_le room)
    refine ⟨_, rfl, rfl, stored.set oldRoot ⟨fits.tag, fits.text, fits.attrs, fits.attr, ?_⟩,
      parsed.forward.trans next.forward, parsed.mallocs.trans next.mallocs, fun n less => ?_, ?_⟩
    · rw [List.length_append]
      exact Nat.lt_of_not_le room
    · have notRoot : n ≠ root := Nat.ne_of_lt (less.trans_le tree.inside.1)
      have notChild : n ≠ child := Nat.ne_of_lt ((less.trans_le parsed.mallocs).trans_le younger.inside.1)
      exact (set_of_ne notRoot ..).trans ((set_of_ne notChild ..).trans (old n less))
    · have isChild := (set_of_ne notSame ((s'.set child { cnode with parent := some root }).write domMaxChildren
        node.children.length) { node with children := node.children ++ [child] }).trans (s'.set_self child _)
      exact tree.attach younger found foundC (set_self ..) isChild
        (fun n notRoot notChild => (set_of_ne notRoot ..).trans (set_of_ne notChild ..)) rfl rfl rfl rfl

/-! ## Elements -/

section Elements

open HtmlParser

variable {src : Bytes} {malloc : Nat → Bool}

/-- A call for a node: it has a result from every valid position that is not too far from the end. -/
def Parses (src : Bytes) (reach : Nat) (parse : HtmlParser → Option (Option NodeId × HtmlParser)) : Prop :=
  ∀ s, s.Valid src.length → src.length ≤ s.pos + reach →
    ∃ result s', parse s = some (result, s') ∧ Parsed src.length s result s' ∧ (s.pos < src.length → s.pos < s'.pos)

theorem skipClose_moved {s : HtmlParser} (valid : s.Valid src.length) (close : atClose src s.pos = true) :
    Moved src.length s (s.at_ (skipPastEnd src (s.pos + 2))) := by
  have room : s.pos + 1 < src.length := by
    rw [atClose, Bool.and_eq_true, Bool.and_eq_true] at close
    exact of_decide_eq_true close.1.2
  have bounds := skipPastEnd_le src (show s.pos + 2 ≤ src.length from room)
  exact (Moved.refl valid).at_ (by omega)

theorem skipStuck_moved {s : HtmlParser} (valid : s.Valid src.length)
    (stuck : (decide (s.pos < src.length) && decide (hpPeek src s.pos ≠ ch '<')) = true) :
    Moved src.length s (s.at_ (s.pos + 1)) := by
  rw [Bool.and_eq_true] at stuck
  exact (Moved.refl valid).next (of_decide_eq_true stuck.1)

theorem skipByte_moved {s : HtmlParser} (valid : s.Valid src.length) {c : UInt8} (real : c ≠ 0) :
    Moved src.length s (skipByte src c s) := by
  rw [skipByte]
  split
  · rename_i isByte
    have inside : s.pos < src.length := hpPeek_inside (isByte.symm ▸ real)
    exact (Moved.refl valid).next inside
  · exact Moved.refl valid

theorem endOpening_moved {s : HtmlParser} (valid : s.Valid src.length) : Moved src.length s (endOpening src s) := by
  have spaces := (Moved.refl valid).at_ (hpSkipSpaces_le src valid.inside)
  have slash := skipByte_moved spaces.valid (show ch '/' ≠ 0 by decide)
  exact (spaces.trans slash).trans (skipByte_moved slash.valid (by decide))

/-- Every turn of the loop takes the parser on. -/
theorem hpChildren_parsed {parse : HtmlParser → Option (Option NodeId × HtmlParser)} {reach : Nat}
    (parses : Parses src reach parse) {base : HtmlParser} {node : NodeId} (fuel : Nat) {s : HtmlParser}
    (parsed : Parsed src.length base (some node) s) (near : src.length ≤ s.pos + reach)
    (enough : src.length < s.pos + fuel) :
    ∃ s', hpChildren src parse node fuel s = some s' ∧ Parsed src.length base (some node) s' := by
  induction fuel generalizing s with
  | zero => exact absurd parsed.valid.inside (Nat.not_le.mpr enough)
  | succ fuel ih =>
      rw [hpChildren]
      split
      · rename_i inside
        split
        · rename_i close
          exact ⟨_, rfl, parsed.moved (skipClose_moved parsed.valid close)⟩
        obtain ⟨result, s₁, isResult, next, progress⟩ := parses s parsed.valid near
        have further := progress inside
        rw [isResult]
        cases result with
        | some child =>
            obtain ⟨s₂, isAdded, samePos, added⟩ := hpAddChild_parsed parsed next
            obtain ⟨s₃, isLast, last⟩ := ih added (by omega) (by omega)
            exact ⟨s₃, by dsimp only; rw [isAdded]; exact isLast, last⟩
        | none =>
            have skipped := parsed.skip next
            dsimp only
            split
            · rename_i close
              exact ⟨_, rfl, skipped.moved (skipClose_moved next.valid close)⟩
            split
            · rename_i stuck
              refine ih (skipped.moved (skipStuck_moved next.valid stuck)) ?_ ?_
              · rw [pos_at_]
                omega
              · rw [pos_at_]
                omega
            · exact ih skipped (by omega) (by omega)
      · exact ⟨s, rfl, parsed⟩

theorem documentLoop_parsed {parse : HtmlParser → Option (Option NodeId × HtmlParser)} {reach : Nat}
    (parses : Parses src reach parse) {base : HtmlParser} {root : NodeId} (fuel : Nat) {s : HtmlParser}
    (parsed : Parsed src.length base (some root) s) (near : src.length ≤ s.pos + reach)
    (enough : src.length < s.pos + fuel) :
    ∃ s', documentLoop src parse root fuel s = some s' ∧ Parsed src.length base (some root) s' := by
  induction fuel generalizing s with
  | zero => exact absurd parsed.valid.inside (Nat.not_le.mpr enough)
  | succ fuel ih =>
      rw [documentLoop]
      split
      · rename_i inside
        obtain ⟨result, s₁, isResult, next, progress⟩ := parses s parsed.valid near
        have further := progress inside
        rw [isResult]
        cases result with
        | some child =>
            obtain ⟨s₂, isAdded, samePos, added⟩ := hpAddChild_parsed parsed next
            obtain ⟨s₃, isLast, last⟩ := ih added (by omega) (by omega)
            exact ⟨s₃, by dsimp only; rw [isAdded]; exact isLast, last⟩
        | none =>
            have skipped := parsed.skip next
            dsimp only
            split
            · rename_i stuck
              refine ih (skipped.moved (skipStuck_moved next.valid stuck)) ?_ ?_
              · rw [pos_at_]
                omega
              · rw [pos_at_]
                omega
            · exact ih skipped (by omega) (by omega)
      · exact ⟨s, rfl, parsed⟩

theorem closeTag_length (tag : Bytes) : (closeTag tag).length < 12 := by
  rw [closeTag, List.length_append, List.length_take]
  have two : (str "</").length = 2 := by decide
  omega

theorem parseContent_parsed {parse : HtmlParser → Option (Option NodeId × HtmlParser)} {reach : Nat} (fuel : Nat)
    (parses : Parses src reach parse) {base s : HtmlParser} {tag : Bytes} {attrs : List DomAttr}
    (parsed : Parsed src.length base (some base.mallocs) s) (one : s.mallocs = base.mallocs + 1)
    (short : tag.length < domTagMax) (fit : AttrsFit attrs) (near : src.length ≤ s.pos + reach)
    (enough : src.length < s.pos + fuel) :
    ∃ result s', parseContent src fuel parse base.mallocs tag attrs s = some (result, s') ∧
      Parsed src.length base result s' := by
  rw [parseContent]
  split
  · exact ⟨_, _, rfl, parsed⟩
  split
  · obtain ⟨pos, text, raw, bounds, length⟩ :=
      rawLoop_scan (tag = str "style") (closeTag tag) parsed.valid.inside
    have moved := (((Moved.refl parsed.valid).write (closeTag_length tag)).at_ bounds).write length
    have fits : (DomNode.element tag attrs text).Fits :=
      { DomNode.blank_fits .element with tag := short, attrs := fit.few, attr := fit.fits, text := length }
    dsimp only
    rw [pos_write, raw]
    exact ⟨_, _, rfl, (parsed.moved moved).set one fits rfl rfl⟩
  · obtain ⟨s', isChildren, parsed'⟩ := hpChildren_parsed parses fuel parsed near enough
    rw [isChildren]
    exact ⟨_, s', rfl, parsed'⟩

theorem parseElement_parsed {parse : HtmlParser → Option (Option NodeId × HtmlParser)} {reach : Nat} (fuel : Nat)
    (parses : Parses src reach parse) {s : HtmlParser} (valid : s.Valid src.length)
    (near : src.length ≤ s.pos + reach) (enough : src.length < s.pos + fuel) :
    ∃ result s', parseElement src fuel parse s.mallocs (s.called.set s.mallocs (.blank .element)) = some (result, s') ∧
      Parsed src.length s result s' := by
  have allocated := Parsed.alloc valid .element
  rw [parseElement]
  obtain ⟨pos, tag, scanned, bounds, length, -⟩ :=
    collect_scan isTagByte htmlTolower allocated.valid.inside (show 0 < domTagMax by decide)
  rw [scanned]
  rw [pos_set, pos_called] at bounds
  have named := ((Moved.refl allocated.valid).at_ bounds).write length
  obtain ⟨s₁, attrs, isAttrs, behind, fit⟩ := hpParseAttrs_moved fuel named.valid AttrsFit.nil (by
      rw [pos_write, pos_at_]
      omega)
  have fits : (DomNode.element tag attrs []).Fits :=
    { DomNode.blank_fits .element with tag := length, attrs := fit.few, attr := fit.fits }
  have one : s₁.mallocs = s.mallocs + 1 := behind.mallocs.trans named.mallocs
  have filled := (allocated.moved (named.trans behind)).set one fits rfl rfl
  have closed := endOpening_moved filled.valid
  have opened := filled.moved closed
  obtain ⟨result, s', isContent, parsed⟩ := parseContent_parsed fuel parses opened
    (closed.mallocs.trans one) length fit (near.trans (Nat.add_le_add_right opened.forward reach))
    (enough.trans_le (Nat.add_le_add_right opened.forward fuel))
  refine ⟨result, s', ?_, parsed⟩
  dsimp only
  rw [isAttrs]
  exact isContent

/-! ## Nodes and documents -/

variable (malloc)

theorem hpParseNode_parsed (fuel : Nat) : Parses src fuel (hpParseNode src malloc (fuel + 1)) := by
  induction fuel with
  | zero =>
      intro s valid near
      rw [hpParseNode, if_pos (show s.pos ≥ src.length from near)]
      exact ⟨none, s, rfl, .nothing valid, fun inside => absurd near (Nat.not_le.mpr inside)⟩
  | succ fuel ih =>
      intro s valid near
      rw [hpParseNode]
      split
      · rename_i outside
        exact ⟨none, s, rfl, .nothing valid, fun inside => absurd outside (Nat.not_le.mpr inside)⟩
      rename_i outside
      have inside : s.pos < src.length := Nat.lt_of_not_le outside
      split
      · rename_i text
        exact ⟨_, _, rfl, hpParseText_parsed valid, fun _ => hpParseText_progress inside text⟩
      have moved := (Moved.refl valid).next inside
      have passed : ∀ {result : Option NodeId} {s' : HtmlParser},
          Parsed src.length (s.at_ (s.pos + 1)) result s' → s.pos < src.length → s.pos < s'.pos :=
        fun parsed _ => parsed.forward
      dsimp only
      split
      · have parsed := Parsed.nothing moved.valid
        exact ⟨none, _, rfl, .behind moved parsed, passed parsed⟩
      split
      · rename_i bang
        have inner : s.pos + 1 < src.length := hpPeek_inside (by
          rw [pos_at_] at bang
          rw [bang]
          decide)
        have parsed := parseDeclaration_parsed malloc moved.valid inner
        exact ⟨_, _, rfl, .behind moved parsed, passed parsed⟩
      cases memory : malloc s.mallocs with
      | false =>
          rw [domAlloc_none (s := s.at_ (s.pos + 1)) memory]
          have parsed := Parsed.failed moved.valid
          exact ⟨none, _, rfl, .behind moved parsed, passed parsed⟩
      | true =>
          rw [domAlloc_some (s := s.at_ (s.pos + 1)) memory]
          obtain ⟨result, s', isElement, parsed⟩ := parseElement_parsed (fuel + 1) ih moved.valid (by
            rw [pos_at_]
            omega) (by
            rw [pos_at_]
            omega)
          exact ⟨result, s', isElement, .behind moved parsed, passed parsed⟩

theorem htmlParse_parsed (html_src : Bytes) :
    ∃ root s, htmlParse malloc (html_src.length + 1) html_src = some (root, s) ∧
      Parsed (cString html_src).length ⟨0, fun _ => none, 0, [], []⟩ root s := by
  have valid : HtmlParser.Valid (cString html_src).length ⟨0, fun _ => none, 0, [], []⟩ := {
    inside := Nat.zero_le _
    positions := fun _ member => absurd member List.not_mem_nil
    writes := fun _ member => absurd member List.not_mem_nil
    fits := fun _ _ found => absurd found (Option.some_ne_none _).symm
    fresh := fun _ _ => rfl }
  have shorter : (cString html_src).length ≤ html_src.length := (List.takeWhile_prefix _).length_le
  rw [htmlParse]
  cases memory : malloc 0 with
  | false =>
      rw [domAlloc_none (s := ⟨0, fun _ => none, 0, [], []⟩) memory]
      exact ⟨none, _, rfl, .failed valid⟩
  | true =>
      rw [domAlloc_some (s := ⟨0, fun _ => none, 0, [], []⟩) memory]
      have short : (str "#document").length < domTagMax := by decide
      have fits : (DomNode.element (str "#document") [] []).Fits := { DomNode.blank_fits .element with tag := short }
      have leaf := Parsed.leaf valid .element fits rfl rfl
      obtain ⟨s, isDocument, parsed⟩ := documentLoop_parsed (hpParseNode_parsed malloc html_src.length)
        (html_src.length + 1) (leaf.moved ((Moved.refl leaf.valid).write short))
        (Nat.le_trans shorter (Nat.le_add_left ..))
        (Nat.lt_of_le_of_lt shorter (Nat.lt_add_left _ (Nat.lt_succ_self _)))
      dsimp only
      rw [isDocument]
      exact ⟨_, s, rfl, parsed⟩

/-- For every string, and whichever calls of `malloc` get no memory, the parser ends, was only at positions of the
string or its end, wrote inside its buffers, and its nodes are well formed and a tree. -/
theorem htmlParse_tree (malloc : Nat → Bool) (html_src : Bytes) :
    ∃ root s, (∀ fuel, html_src.length < fuel → htmlParse malloc fuel html_src = some (root, s)) ∧
      (∀ pos ∈ s.pos :: s.positions, pos ≤ (cString html_src).length) ∧ (∀ w ∈ s.writes, w.index < w.size) ∧
      (∀ n node, s.nodes n = some node → node.Fits) ∧ TreeOf s.nodes 0 s.mallocs root ∧ OneParent s.nodes root := by
  obtain ⟨root, s, isResult, parsed⟩ := htmlParse_parsed malloc html_src
  have tree : TreeOf s.nodes 0 s.mallocs root := parsed.tree
  refine ⟨root, s, fun fuel enough => htmlParse_more isResult enough, fun pos member => ?_, parsed.valid.writes,
    parsed.valid.fits, tree, tree.oneParent parsed.valid.fresh⟩
  rcases List.mem_cons.mp member with rfl | before
  · exact parsed.valid.inside
  · exact parsed.valid.positions pos before

end Elements

end Systrix.Html
