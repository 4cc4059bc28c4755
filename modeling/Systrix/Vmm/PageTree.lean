import Systrix.Vmm.PageTable

/-!
# Page table trees

A space is a tree of tables.  The steps of the walker keep it one and keep what every
address is mapped to.
-/

namespace Systrix.Vmm

open TableTree

/-- The table an entry refers to, by the depth of the table it is in. -/
def child (depth : Nat) (e : Word) : Option Word :=
  if depth < 3 ∧ present e = true ∧ huge e = false then some (frame e) else none

theorem child_absent {e : Word} (absent : present e = false) (depth : Nat) : child depth e = none :=
  if_neg fun ⟨_, is, _⟩ => Bool.false_ne_true (absent.symm.trans is)

theorem child_huge {e : Word} (isHuge : huge e = true) (depth : Nat) : child depth e = none :=
  if_neg fun ⟨_, _, not⟩ => Bool.false_ne_true (not.symm.trans isHuge)

theorem child_three (e : Word) : child 3 e = none := if_neg fun ⟨low, _⟩ => absurd low (by decide)

/-- The table at a place of the space of `cr3`. -/
abbrev tableAt (mem : Pages) (cr3 : Word) : List Index → Option Word := table child mem cr3

/-- The entry at a place. -/
abbrev entryAt (mem : Pages) (cr3 : Word) : List Index → Option Word := entry child mem cr3

/-- The place of the last entry for an address. -/
def path (virt : Word) : List Index := [i1 virt, i2 virt, i3 virt, i4 virt]

/-- A mapping from the entries of the four levels, as far as there are any. -/
def resolve (virt : Word) : Option Word → Option Word → Option Word → Option Word → Option Mapping
  | some e4, some e3, e2, e1 =>
      if present e3 then
        if huge e3 then some ⟨giantFrame e3 virt, (Perms.ofEntry e4).and (.ofEntry e3)⟩
        else
          match e2 with
          | none => none
          | some e2 =>
              if present e2 then
                if huge e2 then
                  some ⟨hugeFrame e2 virt, (Perms.ofEntry e4).and ((Perms.ofEntry e3).and (.ofEntry e2))⟩
                else
                  match e1 with
                  | none => none
                  | some e1 =>
                      if present e1 then
                        some ⟨frame e1, (Perms.ofEntry e4).and
                          ((Perms.ofEntry e3).and ((Perms.ofEntry e2).and (.ofEntry e1)))⟩
                      else none
              else none
      else none
  | _, _, _, _ => none

/-- The walk reads the entries on the path of the address. -/
theorem walk_eq (mem : Pages) (cr3 virt : Word) :
    walk mem cr3 virt = resolve virt (entryAt mem cr3 [i4 virt]) (entryAt mem cr3 [i3 virt, i4 virt])
      (entryAt mem cr3 [i2 virt, i3 virt, i4 virt]) (entryAt mem cr3 (path virt)) := by
  have first : entry child mem cr3 [i4 virt] = some (mem cr3 (i4 virt)) := rfl
  unfold path entryAt walk
  simp only [entry_below, first, Option.bind_some, List.length_nil, List.length_cons]
  generalize mem cr3 (i4 virt) = e4
  cases down4 : present e4 <;> cases huge4 : huge e4 <;>
    simp [child, resolve, down4, huge4]
  generalize mem (frame e4) (i3 virt) = e3
  cases present e3 <;> cases huge e3 <;> simp
  generalize mem (frame e3) (i2 virt) = e2
  cases present e2 <;> cases huge e2 <;> simp

theorem not_suffix {place q : List Index} (short : q.length < place.length) : ¬ place <:+ q :=
  fun below => absurd below.length_le (Nat.not_le.mpr short)

/-- The upper places on the path of an address. -/
theorem path_cases {virt : Word} {i : Index} {place : List Index} (low : place.length < 3)
    (through : i :: place <:+ path virt) :
    place = [] ∧ i = i4 virt ∨ place = [i4 virt] ∧ i = i3 virt ∨
      place = [i3 virt, i4 virt] ∧ i = i2 virt := by
  unfold path at through
  simp only [List.suffix_cons_iff, List.cons.injEq, List.suffix_nil, reduceCtorEq, or_false] at through
  rcases through with ⟨-, rfl⟩ | ⟨rfl, rfl⟩ | ⟨rfl, rfl⟩ | ⟨rfl, rfl⟩
  · exact absurd low (by simp)
  · exact .inr (.inr ⟨rfl, rfl⟩)
  · exact .inr (.inl ⟨rfl, rfl⟩)
  · exact .inl ⟨rfl, rfl⟩

@[simp] theorem Perms.full_and (a : Perms) : Perms.full.and a = a := rfl

@[simp] theorem Perms.and_full (a : Perms) : a.and .full = a := by
  simp [Perms.and, Perms.full]

theorem Perms.and_assoc (a b c : Perms) : (a.and b).and c = a.and (b.and c) := by
  simp [Perms.and, Bool.and_assoc, Bool.or_assoc]

/-- What an entry that refers to a table forbids below it. -/
def limit : Option Word → Perms
  | some e => if present e && !huge e then .ofEntry e else .full
  | none => .full

/-- What the tables on the path of an address forbid. -/
def above (mem : Pages) (cr3 virt : Word) : Perms :=
  (limit (entryAt mem cr3 [i4 virt])).and
    ((limit (entryAt mem cr3 [i3 virt, i4 virt])).and
      (limit (entryAt mem cr3 [i2 virt, i3 virt, i4 virt])))

theorem walk_congr {mem mem' : Pages} {cr3 : Word}
    (same : ∀ place t, tableAt mem cr3 place = some t → mem' t = mem t) (virt : Word) :
    walk mem' cr3 virt = walk mem cr3 virt ∧ above mem' cr3 virt = above mem cr3 virt := by
  have entries : ∀ q, entryAt mem' cr3 q = entryAt mem cr3 q := entry_congr same
  rw [walk_eq, walk_eq, above, above, entries, entries, entries, entries]
  exact ⟨rfl, rfl⟩

/-! ## Entries for new tables -/

section Entries

variable {p : Word}

/-- The bits outside the address of a page are zero. -/
theorem aligned_bit (aligned : frame p = p) {i : Nat} (outside : ptePhysMask.getLsbD i = false) :
    p.getLsbD i = false := by
  rw [← aligned, frame, BitVec.getLsbD_and, outside, Bool.and_false]

theorem frame_tableEntry (aligned : frame p = p) : frame (tableEntry p) = p := by
  have flags : (ptePresent ||| pteWrite ||| pteUser) &&& ptePhysMask = 0 := by decide
  rw [frame, tableEntry, BitVec.or_assoc, BitVec.or_assoc, BitVec.and_or_distrib_right,
    ← BitVec.or_assoc, flags]
  exact (BitVec.or_zero).trans aligned

@[simp] theorem present_tableEntry : present (tableEntry p) = true := by
  simp [present, tableEntry, ptePresent]

@[simp] theorem writable_tableEntry : writable (tableEntry p) = true := by
  simp [writable, tableEntry, pteWrite]

@[simp] theorem user_tableEntry : user (tableEntry p) = true := by
  simp [user, tableEntry, pteUser]

theorem huge_tableEntry (aligned : frame p = p) : huge (tableEntry p) = false := by
  have bit := aligned_bit aligned (i := 7) (by decide)
  simpa [huge, tableEntry, ptePresent, pteWrite, pteUser] using bit

theorem noExecute_tableEntry (aligned : frame p = p) : noExecute (tableEntry p) = false := by
  have bit := aligned_bit aligned (i := 63) (by decide)
  simpa [noExecute, tableEntry, ptePresent, pteWrite, pteUser] using bit

theorem perms_tableEntry (aligned : frame p = p) : Perms.ofEntry (tableEntry p) = .full := by
  rw [Perms.ofEntry, writable_tableEntry, user_tableEntry, noExecute_tableEntry aligned, Perms.full]

theorem limit_tableEntry (aligned : frame p = p) : limit (some (tableEntry p)) = .full := by
  rw [limit, present_tableEntry, huge_tableEntry aligned]
  exact perms_tableEntry aligned

/-- An entry that refers to no table forbids nothing below it. -/
theorem limit_of_child {depth : Nat} {e : Word} (low : depth < 3) (none : child depth e = none) :
    limit (some e) = .full := by
  rw [limit]
  by_cases table : (present e && !huge e) = true
  · obtain ⟨isPresent, notHuge⟩ := Bool.and_eq_true_iff.mp table
    rw [child, if_pos ⟨low, isPresent, by simpa using notHuge⟩] at none
    cases none
  · rw [if_neg table]

theorem child_tableEntry (aligned : frame p = p) {depth : Nat} (low : depth < 3) :
    child depth (tableEntry p) = some p := by
  rw [child, if_pos ⟨low, present_tableEntry, huge_tableEntry aligned⟩, frame_tableEntry aligned]

variable (e : Word) (k : Index)

theorem pageOffset_masked : pageOffset k &&& ptePhysMask = pageOffset k := by
  revert k
  decide +kernel

/-- The offset has no bit in common with the address of the huge page. -/
theorem splitEntry_eq :
    splitEntry e k = (e &&& ~~~0x1fffff) ||| pageOffset k ||| (e &&& (0xfff &&& ~~~0x80)) := by
  have apart : ~~~(0x1fffff : Word) &&& pageOffset k = 0 := by
    revert k
    decide +kernel
  unfold splitEntry
  dsimp only
  rw [BitVec.add_eq_or_of_and_eq_zero, BitVec.and_assoc e]
  rw [BitVec.and_assoc, apart]
  exact BitVec.and_zero

theorem frame_splitEntry : frame (splitEntry e k) = (e &&& 0x000fffffffe00000) ||| pageOffset k := by
  have phys : ~~~(0x1fffff : Word) &&& ptePhysMask = 0x000fffffffe00000 := by decide
  have flags : (0xfff : Word) &&& ~~~0x80 &&& ptePhysMask = 0 := by decide
  rw [frame, splitEntry_eq, BitVec.and_or_distrib_right, BitVec.and_or_distrib_right, BitVec.and_assoc,
    phys, pageOffset_masked, BitVec.and_assoc e, flags]
  have nothing : e &&& 0 = (0 : Word) := BitVec.and_zero
  rw [nothing]
  exact BitVec.or_zero

/-- Bits of the flags stay where they are, as does the bit `PTE_NX`. -/
theorem splitEntry_bit {i : Nat} (offset : ∀ k, (pageOffset k).getLsbD i = false)
    (flag : ((~~~0x1fffff : Word) ||| (0xfff &&& ~~~0x80)).getLsbD i = true) :
    (splitEntry e k).getLsbD i = e.getLsbD i := by
  rw [BitVec.getLsbD_or] at flag
  rw [splitEntry_eq, BitVec.getLsbD_or, BitVec.getLsbD_or, offset, BitVec.getLsbD_and,
    BitVec.getLsbD_and, Bool.or_false, ← Bool.and_or_distrib_left, flag, Bool.and_true]

theorem present_splitEntry : present (splitEntry e k) = present e :=
  splitEntry_bit e k (by decide +kernel) (by decide)

theorem writable_splitEntry : writable (splitEntry e k) = writable e :=
  splitEntry_bit e k (by decide +kernel) (by decide)

theorem user_splitEntry : user (splitEntry e k) = user e :=
  splitEntry_bit e k (by decide +kernel) (by decide)

theorem noExecute_splitEntry : noExecute (splitEntry e k) = noExecute e :=
  splitEntry_bit e k (by decide +kernel) (by decide)

theorem perms_splitEntry : Perms.ofEntry (splitEntry e k) = .ofEntry e := by
  rw [Perms.ofEntry, writable_splitEntry, user_splitEntry, noExecute_splitEntry, Perms.ofEntry]

end Entries

/-! ## Spaces -/

/-- The space of `cr3` is a tree without pages of 1 GB, and the pages that will be
allocated are aligned, different and no tables. -/
structure Tree (vm : Vm) (cr3 : Word) : Prop where
  distinct : Distinct child vm.mem cr3
  small : ∀ place t i, place.length < 2 → tableAt vm.mem cr3 place = some t →
    present (vm.mem t i) = true → huge (vm.mem t i) = false
  fresh : ∀ p ∈ vm.supply, ∀ place, tableAt vm.mem cr3 place ≠ some p
  nodup : vm.supply.Nodup
  aligned : ∀ p ∈ vm.supply, frame p = p

/-- The page an entry of a last table maps for ring 3. -/
def userPage (mem : Pages) (cr3 : Word) (place : List Index) : Option Word :=
  (entryAt mem cr3 place).bind fun e => if present e && user e then some (frame e) else none

/-- No page of 2 MB is one for ring 3. -/
def Supervisor (mem : Pages) (cr3 : Word) : Prop :=
  ∀ t i j k, tableAt mem cr3 [j, k] = some t → present (mem t i) = true → huge (mem t i) = true →
    user (mem t i) = false

/-- What the walker may do to a space: add tables. -/
structure Extends (cr3 : Word) (vm vm' : Vm) : Prop where
  tree : Tree vm' cr3
  walks : ∀ virt, walk vm'.mem cr3 virt = walk vm.mem cr3 virt
  supply : vm'.supply <:+ vm.supply
  tables : ∀ place t, tableAt vm.mem cr3 place = some t → tableAt vm'.mem cr3 place = some t
  above : ∀ virt, above vm'.mem cr3 virt = above vm.mem cr3 virt
  pages : ∀ p, p ∉ vm.supply → (∀ place, tableAt vm.mem cr3 place ≠ some p) → vm'.mem p = vm.mem p
  refcnt : ∀ p, p ∉ vm.supply → vm'.refcnt p = vm.refcnt p
  added : ∀ place p, tableAt vm'.mem cr3 place = some p →
    tableAt vm.mem cr3 place = some p ∨ p ∈ vm.supply
  ram_end : vm'.ram_end = vm.ram_end
  freed : vm'.freed = vm.freed
  userPages : Supervisor vm.mem cr3 → Supervisor vm'.mem cr3 ∧
    ∀ place, place.length = 4 → userPage vm'.mem cr3 place = userPage vm.mem cr3 place

theorem Extends.refl {vm : Vm} {cr3 : Word} (tree : Tree vm cr3) : Extends cr3 vm vm where
  tree := tree
  walks _ := rfl
  supply := List.suffix_rfl
  tables _ _ := id
  above _ := rfl
  pages _ _ _ := rfl
  refcnt _ _ := rfl
  added _ _ := .inl
  ram_end := rfl
  freed := rfl
  userPages supervisor := ⟨supervisor, fun _ _ => rfl⟩

theorem Extends.trans {vm vm' vm'' : Vm} {cr3 : Word} (first : Extends cr3 vm vm')
    (second : Extends cr3 vm' vm'') : Extends cr3 vm vm'' where
  tree := second.tree
  walks virt := (second.walks virt).trans (first.walks virt)
  supply := second.supply.trans first.supply
  tables place t found := second.tables place t (first.tables place t found)
  above virt := (second.above virt).trans (first.above virt)
  pages p unused noTable := by
    have unused' : p ∉ vm'.supply := fun member => unused (first.supply.mem member)
    have noTable' : ∀ place, tableAt vm'.mem cr3 place ≠ some p := fun place found =>
      (first.added place p found).elim (noTable place) unused
    rw [second.pages p unused' noTable', first.pages p unused noTable]
  refcnt p unused := by
    rw [second.refcnt p fun member => unused (first.supply.mem member), first.refcnt p unused]
  added place p found := by
    rcases second.added place p found with before | supplied
    · exact first.added place p before
    · exact .inr (first.supply.mem supplied)
  ram_end := second.ram_end.trans first.ram_end
  freed := second.freed.trans first.freed
  userPages supervisor := by
    obtain ⟨supervisor', same⟩ := first.userPages supervisor
    obtain ⟨supervisor'', same'⟩ := second.userPages supervisor'
    exact ⟨supervisor'', fun place last => (same' place last).trans (same place last)⟩

/-- The memory after a page of the supply was filled and linked as a table. -/
def Vm.link (vm : Vm) (p : Word) (rest : List Word) (t : Word) (i : Index) (contents : Index → Word) :
    Vm :=
  { vm with
    mem := TableTree.setEntry (Function.update vm.mem p contents) t i (tableEntry p)
    supply := rest
    refcnt := Function.update vm.refcnt p 1 }

section Link

variable {vm : Vm} {cr3 p t : Word} {rest : List Word} {place : List Index} {i : Index}
  {c : Index → Word}

/-- Filling a page that is no table moves no table. -/
theorem filled_same (fresh : ∀ place, tableAt vm.mem cr3 place ≠ some p) (q : List Index) (t : Word)
    (found : tableAt vm.mem cr3 q = some t) : Function.update vm.mem p c t = vm.mem t :=
  Function.update_of_ne (fun same => fresh q (found.trans (congrArg some same))) _ _

theorem link_page (new : p ≠ t) (j : Index) :
    (vm.link p rest t i c).mem p j = c j := by
  show TableTree.setEntry _ t i _ p j = c j
  rw [setEntry_of_ne _ fun same => absurd same new, Function.update_self]

theorem link_of_ne {t' : Word} {j : Index} (old : t' ≠ p) (ne : t' = t → j ≠ i) :
    (vm.link p rest t i c).mem t' j = vm.mem t' j := by
  show TableTree.setEntry _ t i _ t' j = vm.mem t' j
  rw [setEntry_of_ne _ ne, Function.update_of_ne old]

theorem Tree.fresh_head (tree : Tree vm cr3) (supply : vm.supply = p :: rest) (q : List Index) :
    tableAt vm.mem cr3 q ≠ some p :=
  tree.fresh p (by rw [supply]; exact List.mem_cons_self) q

theorem Tree.aligned_head (tree : Tree vm cr3) (supply : vm.supply = p :: rest) : frame p = p :=
  tree.aligned p (by rw [supply]; exact List.mem_cons_self)

variable (tree : Tree vm cr3) (supply : vm.supply = p :: rest)
  (found : tableAt vm.mem cr3 place = some t)

include tree supply found

/-- Filling the new page moves nothing. -/
theorem filled_facts :
    Distinct child (Function.update vm.mem p c) cr3 ∧
      table child (Function.update vm.mem p c) cr3 place = some t ∧
      Function.update vm.mem p c t = vm.mem t := by
  have same := filled_same (c := c) (tree.fresh_head supply)
  exact ⟨tree.distinct.congr same, (table_congr same place).trans found, same place t found⟩

theorem table_link (low : place.length < 3) (before : child place.length (vm.mem t i) = none)
    (leaf : ∀ j, child (place.length + 1) (c j) = none) (q : List Index) :
    tableAt (vm.link p rest t i c).mem cr3 q =
      if q = i :: place then some p else tableAt vm.mem cr3 q := by
  obtain ⟨distinct, found', unchanged⟩ := filled_facts tree supply found (c := c)
  have aligned := tree.aligned_head supply
  have new : p ≠ t := fun same => tree.fresh_head supply place (found.trans (congrArg some same.symm))
  have linked := table_setEntry_link distinct found' (i := i) (e := tableEntry p)
    (by rw [unchanged, before]) (child_tableEntry aligned low) new
    (fun j => by rw [Function.update_self]; exact leaf j) q
  rw [tableAt, Vm.link, linked, table_congr (filled_same (tree.fresh_head supply))]

/-- The entries that are neither the new one nor below it. -/
theorem entry_link {q : List Index} (apart : ¬ i :: place <:+ q) :
    entryAt (vm.link p rest t i c).mem cr3 q = entryAt vm.mem cr3 q := by
  obtain ⟨distinct, found', -⟩ := filled_facts tree supply found (c := c)
  rw [entryAt, Vm.link, entry_setEntry distinct found' _ apart,
    entry_congr (filled_same (tree.fresh_head supply))]

theorem entry_link_self :
    entryAt (vm.link p rest t i c).mem cr3 (i :: place) = some (tableEntry p) := by
  obtain ⟨distinct, found', -⟩ := filled_facts tree supply found (c := c)
  exact entry_setEntry_self distinct found' _

theorem entry_link_below (low : place.length < 3) (j : Index) :
    entryAt (vm.link p rest t i c).mem cr3 (j :: i :: place) = some (c j) := by
  have new : p ≠ t := fun same => tree.fresh_head supply place (found.trans (congrArg some same.symm))
  have linked := entry_link_self tree supply found (i := i) (c := c)
  rw [entryAt] at linked ⊢
  rw [entry_below, linked, Option.bind_some, child_tableEntry (tree.aligned_head supply) low,
    Option.map_some, link_page new]

/-- An address whose path does not go through the new table is mapped as before. -/
theorem walk_link_apart {virt : Word} (apart : ¬ i :: place <:+ path virt) :
    walk (vm.link p rest t i c).mem cr3 virt = walk vm.mem cr3 virt := by
  have same : ∀ q, q <:+ path virt →
      entryAt (vm.link p rest t i c).mem cr3 q = entryAt vm.mem cr3 q := fun q upper =>
    entry_link tree supply found fun below => apart (below.trans upper)
  rw [walk_eq, walk_eq, same _ ⟨[i1 virt, i2 virt, i3 virt], rfl⟩, same _ ⟨[i1 virt, i2 virt], rfl⟩,
    same _ ⟨[i1 virt], rfl⟩, same _ List.suffix_rfl]

/-- An empty table in place of an absent entry maps nothing. -/
theorem walk_link_empty (low : place.length < 3) (absent : present (vm.mem t i) = false) (virt : Word) :
    walk (vm.link p rest t i fun _ => 0).mem cr3 virt = walk vm.mem cr3 virt := by
  by_cases through : i :: place <:+ path virt
  · have nothing : present 0#64 = false := by decide
    have aligned := tree.aligned_head supply
    have new := entry_link_self tree supply found (i := i) (c := fun _ => 0)
    have below := entry_link_below tree supply found (i := i) (c := fun _ => 0) low
    have old : entryAt vm.mem cr3 (i :: place) = some (vm.mem t i) := entry_cons i found
    have above := fun (q : List Index) (short : q.length < (i :: place).length) =>
      entry_link tree supply found (i := i) (c := fun _ => 0) (not_suffix short)
    rw [walk_eq, walk_eq]
    rcases path_cases low through with ⟨rfl, rfl⟩ | ⟨rfl, rfl⟩ | ⟨rfl, rfl⟩
    · have old' : entryAt vm.mem cr3 [i3 virt, i4 virt] = none := by
        rw [entryAt, entry_below, ← entryAt, old, Option.bind_some, child_absent absent]
        rfl
      rw [new, below, old, old']
      simp [resolve, nothing]
    · rw [above [i4 virt] (by simp), new, below, old]
      cases entryAt vm.mem cr3 [i4 virt] with
      | none => rfl
      | some e4 => simp [resolve, nothing, absent, huge_tableEntry aligned]
    · rw [above [i4 virt] (by simp), above [i3 virt, i4 virt] (by simp), new, path, below,
        old]
      cases entryAt vm.mem cr3 [i4 virt] with
      | none => rfl
      | some e4 =>
        cases entryAt vm.mem cr3 [i3 virt, i4 virt] with
        | none => rfl
        | some e3 => simp [resolve, nothing, absent, huge_tableEntry aligned]
  · exact walk_link_apart tree supply found through

/-- The table of the pages of a huge page maps what the huge page did. -/
theorem walk_link_split {j k : Index} (found' : place = [j, k]) (isHuge : huge (vm.mem t i) = true)
    (virt : Word) :
    walk (vm.link p rest t i (splitEntry (vm.mem t i))).mem cr3 virt = walk vm.mem cr3 virt := by
  by_cases through : i :: place <:+ path virt
  · have low : place.length < 3 := by simp [found']
    have aligned := tree.aligned_head supply
    have new := entry_link_self tree supply found (i := i) (c := splitEntry (vm.mem t i))
    have below :=
      entry_link_below tree supply found (i := i) (c := splitEntry (vm.mem t i)) low
    have old : entryAt vm.mem cr3 (i :: place) = some (vm.mem t i) := entry_cons i found
    have above := fun (q : List Index) (short : q.length < (i :: place).length) =>
      entry_link tree supply found (i := i) (c := splitEntry (vm.mem t i)) (not_suffix short)
    rw [walk_eq, walk_eq]
    rcases path_cases low through with ⟨rfl, rfl⟩ | ⟨rfl, rfl⟩ | ⟨rfl, rfl⟩
    · cases found'
    · cases found'
    · rw [above [i4 virt] (by simp), above [i3 virt, i4 virt] (by simp), new, path, below,
        old]
      generalize vm.mem t (i2 virt) = e at isHuge
      cases entryAt vm.mem cr3 [i4 virt] with
      | none => rfl
      | some e4 =>
        cases entryAt vm.mem cr3 [i3 virt, i4 virt] with
        | none => rfl
        | some e3 =>
          simp [resolve, isHuge, huge_tableEntry aligned, perms_tableEntry aligned, present_splitEntry,
            perms_splitEntry, frame_splitEntry, hugeFrame]
  · exact walk_link_apart tree supply found through

/-- Linking a table forbids nothing. -/
theorem above_link (low : place.length < 3) (before : child place.length (vm.mem t i) = none)
    (small : place.length < 2 → ∀ j, present (c j) = false) (virt : Word) :
    above (vm.link p rest t i c).mem cr3 virt = above vm.mem cr3 virt := by
  have aligned := tree.aligned_head supply
  have new := entry_link_self tree supply found (i := i) (c := c)
  have below := entry_link_below tree supply found (i := i) (c := c) low
  have old : entryAt vm.mem cr3 (i :: place) = some (vm.mem t i) := entry_cons i found
  have oldBelow : ∀ j, entryAt vm.mem cr3 (j :: i :: place) = none := fun j => by
    rw [entryAt, entry_below, ← entryAt, old, Option.bind_some, before, Option.map_none]
  have absent : ∀ j, place.length < 2 → limit (some (c j)) = .full := fun j short =>
    limit_of_child low (child_absent (small short j) _)
  have same := fun (q : List Index) (apart : ¬ i :: place <:+ q) =>
    entry_link tree supply found (i := i) (c := c) apart
  unfold above
  by_cases through : i :: place <:+ path virt
  · rcases path_cases low through with ⟨rfl, rfl⟩ | ⟨rfl, rfl⟩ | ⟨rfl, rfl⟩
    · have newThird : entryAt (vm.link p rest t (i4 virt) c).mem cr3
          [i2 virt, i3 virt, i4 virt] = none := by
        rw [entryAt, entry_below, ← entryAt, below, Option.bind_some,
          child_absent (small (by simp) _), Option.map_none]
      have oldThird : entryAt vm.mem cr3 [i2 virt, i3 virt, i4 virt] = none := by
        rw [entryAt, entry_below, ← entryAt, oldBelow, Option.bind_none]
      rw [new, below, old, oldBelow, newThird, oldThird, limit_tableEntry aligned, absent _ (by simp),
        limit_of_child low before]
      rfl
    · rw [same [i4 virt] (not_suffix (by simp)), new, below, old, oldBelow, limit_tableEntry aligned,
        absent _ (by simp), limit_of_child low before]
      rfl
    · rw [same [i4 virt] (not_suffix (by simp)), same [i3 virt, i4 virt] (not_suffix (by simp)), new, old,
        limit_tableEntry aligned, limit_of_child low before]
  · have upper := fun (q : List Index) (suffix : q <:+ path virt) =>
      same q fun isBelow => through (isBelow.trans suffix)
    rw [upper _ ⟨[i1 virt, i2 virt, i3 virt], rfl⟩, upper _ ⟨[i1 virt, i2 virt], rfl⟩,
      upper _ ⟨[i1 virt], rfl⟩]

/-- Linking a table without pages for ring 3 gives ring 3 no page. -/
theorem userPage_link (low : place.length < 3) (before : child place.length (vm.mem t i) = none)
    (small : place.length < 2 → ∀ j, present (c j) = false)
    (kernel : ∀ j, present (c j) = true → user (c j) = false) {q : List Index} (last : q.length = 4) :
    userPage (vm.link p rest t i c).mem cr3 q = userPage vm.mem cr3 q := by
  unfold userPage
  by_cases below : i :: place <:+ q
  · have nothing : ∀ mem : Pages, ∀ r, tableAt mem cr3 r = none → ∀ front, front ≠ [] →
        entryAt mem cr3 (front ++ r) = none := fun mem r none front nonempty => by
      obtain ⟨j, front, rfl⟩ := List.exists_cons_of_ne_nil nonempty
      rw [List.cons_append, entryAt, entry, table_suffix (List.suffix_append front r) none]
      rfl
    obtain ⟨front, rfl⟩ := below
    have nonempty : front ≠ [] := by
      rintro rfl
      rw [List.nil_append, List.length_cons] at last
      omega
    have old : tableAt vm.mem cr3 (i :: place) = none := (table_cons i found).trans before
    rw [nothing vm.mem _ old front nonempty]
    obtain ⟨front, j, rfl⟩ := List.eq_nil_or_concat front |>.resolve_left nonempty
    have isBelow := entry_link_below tree supply found (i := i) (c := c) low j
    rw [List.concat_append]
    cases isFront : front with
    | nil =>
      rw [List.nil_append, isBelow]
      cases isPresent : present (c j) with
      | false => simp [isPresent]
      | true => simp [isPresent, kernel j isPresent]
    | cons k front' =>
      have upper : place.length < 2 := by
        rw [isFront, List.concat_append, List.length_append, List.length_cons, List.length_cons] at last
        simp only [List.length_cons] at last
        omega
      have empty : tableAt (vm.link p rest t i c).mem cr3 (j :: i :: place) = none := by
        rw [tableAt, table]
        rw [entryAt, entry] at isBelow
        obtain ⟨t', foundT, isEntry⟩ := Option.map_eq_some_iff.mp isBelow
        rw [foundT, Option.bind_some, isEntry]
        exact child_absent (small upper j) _
      rw [nothing _ _ empty _ (List.cons_ne_nil k front')]
  · rw [entry_link tree supply found below]

theorem supervisor_link (low : place.length < 3) (before : child place.length (vm.mem t i) = none)
    (leaf : ∀ j, child (place.length + 1) (c j) = none)
    (small : place.length < 2 → ∀ j, present (c j) = false) (supervisor : Supervisor vm.mem cr3) :
    Supervisor (vm.link p rest t i c).mem cr3 := by
  intro t' i' j k foundT isPresent isHuge
  have new : p ≠ t := fun same => tree.fresh_head supply place (found.trans (congrArg some same.symm))
  rw [table_link tree supply found low before leaf] at foundT
  split at foundT
  · rename_i isNew
    obtain rfl := Option.some.inj foundT
    have upper : place.length < 2 := by
      have := congrArg List.length isNew
      simp only [List.length_cons, List.length_nil] at this
      omega
    rw [link_page new, small upper] at isPresent
    cases isPresent
  · have old : t' ≠ p := fun same => tree.fresh_head supply _ (foundT.trans (congrArg some same))
    by_cases cell : t' = t ∧ i' = i
    · obtain ⟨rfl, rfl⟩ := cell
      have isEntry : (vm.link p rest t' i' c).mem t' i' = tableEntry p := setEntry_self t' i' _
      rw [isEntry, huge_tableEntry (tree.aligned_head supply)] at isHuge
      cases isHuge
    · have same : (vm.link p rest t i c).mem t' i' = vm.mem t' i' :=
        link_of_ne old fun same same' => cell ⟨same, same'⟩
      rw [same] at isPresent isHuge ⊢
      exact supervisor t' i' j k foundT isPresent isHuge

/-- Linking a table extends the space when the walks stay. -/
theorem Tree.link (low : place.length < 3) (before : child place.length (vm.mem t i) = none)
    (leaf : ∀ j, child (place.length + 1) (c j) = none)
    (small : place.length < 2 → ∀ j, present (c j) = false)
    (walks : ∀ virt, walk (vm.link p rest t i c).mem cr3 virt = walk vm.mem cr3 virt)
    (kernel : Supervisor vm.mem cr3 → ∀ j, present (c j) = true → user (c j) = false) :
    Extends cr3 vm (vm.link p rest t i c) := by
  obtain ⟨distinct, found', unchanged⟩ := filled_facts tree supply found (c := c)
  have aligned := tree.aligned_head supply
  have new : p ≠ t := fun same => tree.fresh_head supply place (found.trans (congrArg some same.symm))
  have tables := table_link tree supply found low before leaf
  have notMem : p ∉ rest := (List.nodup_cons.mp (supply ▸ tree.nodup)).1
  have supplied : ∀ q ∈ rest, q ∈ vm.supply := fun q member => by
    rw [supply]
    exact List.mem_cons_of_mem p member
  refine ⟨⟨?_, ?_, ?_, ?_, ?_⟩, walks, ?_, ?_, above_link tree supply found low before small, ?_, ?_, ?_,
    rfl, rfl, fun supervisor => ⟨supervisor_link tree supply found low before leaf small supervisor,
      fun q last => userPage_link tree supply found low before small (kernel supervisor) last⟩⟩
  · have fresh : ∀ q, table child (Function.update vm.mem p c) cr3 q ≠ some p := fun q => by
      rw [table_congr (filled_same (tree.fresh_head supply))]
      exact tree.fresh_head supply q
    exact distinct.setEntry_link found' (by rw [unchanged, before]) (child_tableEntry aligned low) fresh
      fun j => by rw [Function.update_self]; exact leaf j
  · intro q t' j short foundQ isPresent
    rw [tables] at foundQ
    split at foundQ
    · rename_i isNew
      obtain rfl := Option.some.inj foundQ
      have above : place.length < 2 := by
        rw [isNew, List.length_cons] at short
        omega
      rw [link_page new] at isPresent
      exact absurd (isPresent.symm.trans (small above j)) (by decide)
    · have old : t' ≠ p := fun same => tree.fresh_head supply q (foundQ.trans (congrArg some same))
      by_cases cell : t' = t ∧ j = i
      · obtain ⟨rfl, rfl⟩ := cell
        show huge (TableTree.setEntry _ t' j _ t' j) = false
        rw [setEntry_self]
        exact huge_tableEntry aligned
      · have ne : t' = t → j ≠ i := fun same same' => cell ⟨same, same'⟩
        rw [link_of_ne old ne] at isPresent ⊢
        exact tree.small q t' j short foundQ isPresent
  · intro q member q' foundQ
    rw [tables] at foundQ
    split at foundQ
    · obtain rfl := Option.some.inj foundQ
      exact notMem member
    · exact tree.fresh q (supplied q member) q' foundQ
  · exact (List.nodup_cons.mp (supply ▸ tree.nodup)).2
  · exact fun q member => tree.aligned q (supplied q member)
  · rw [supply]
    exact List.suffix_cons p rest
  · intro q t' foundQ
    rw [tables, if_neg]
    · exact foundQ
    · rintro rfl
      rw [tableAt, table_cons i found, before] at foundQ
      cases foundQ
  · intro q unused noTable
    have notP : q ≠ p := fun same => unused (by rw [same, supply]; exact List.mem_cons_self)
    have notT : q ≠ t := fun same => noTable place (found.trans (congrArg some same.symm))
    exact funext fun j => link_of_ne notP fun same => absurd same notT
  · intro q unused
    have notP : q ≠ p := fun same => unused (by rw [same, supply]; exact List.mem_cons_self)
    exact Function.update_of_ne notP _ _
  · intro q t' foundQ
    rw [tables] at foundQ
    split at foundQ
    · obtain rfl := Option.some.inj foundQ
      exact .inr (by rw [supply]; exact List.mem_cons_self)
    · exact .inl foundQ

end Link

/-! ## The walker -/

section Walker

variable {vm : Vm} {cr3 t : Word} {place : List Index} (tree : Tree vm cr3)

include tree

/-- A present entry of a space that is no huge page refers to a table. -/
theorem child_of_present {i : Index} (found : tableAt vm.mem cr3 place = some t)
    (low : place.length < 3) (notHuge : place.length = 2 → huge (vm.mem t i) = false)
    (isPresent : present (vm.mem t i) = true) :
    child place.length (vm.mem t i) = some (frame (vm.mem t i)) := by
  have table : huge (vm.mem t i) = false := by
    by_cases last : place.length = 2
    · exact notHuge last
    · exact tree.small place t i (by omega) found isPresent
  exact if_pos ⟨low, isPresent, table⟩

theorem nextTable_spec (i : Index) (alloc : Bool) (found : tableAt vm.mem cr3 place = some t)
    (low : place.length < 3) (notHuge : place.length = 2 → huge (vm.mem t i) = false) :
    Extends cr3 vm (nextTable vm t i alloc).2 ∧
      (∀ t', (nextTable vm t i alloc).1 = some t' →
        tableAt (nextTable vm t i alloc).2.mem cr3 (i :: place) = some t') ∧
      ((nextTable vm t i alloc).1 = none →
        alloc = true ∧ (nextTable vm t i alloc).2.supply = [] ∨ alloc = false) := by
  unfold nextTable
  by_cases isPresent : present (vm.mem t i) = true
  · rw [if_pos isPresent]
    refine ⟨.refl tree, fun t' same => ?_, fun none => by cases none⟩
    obtain rfl := Option.some.inj same
    exact (table_cons i found).trans (child_of_present tree found low notHuge isPresent)
  · rw [if_neg isPresent]
    have absent : present (vm.mem t i) = false := Bool.eq_false_iff.mpr isPresent
    cases alloc with
    | false => exact ⟨.refl tree, fun _ some => (by cases some), fun _ => .inr rfl⟩
    | true =>
      rw [if_pos rfl]
      unfold pmmAlloc
      cases supply : vm.supply with
      | nil => exact ⟨.refl tree, fun _ some => (by cases some), fun _ => .inl ⟨rfl, supply⟩⟩
      | cons p rest =>
        have before := child_absent absent place.length
        have leaf : ∀ j : Index, child (place.length + 1) ((fun _ => 0 : Index → Word) j) = none :=
          fun _ => child_absent (e := 0) (by decide) _
        have linked := tree.link supply found (i := i) low before leaf (fun _ _ => by decide)
          (walk_link_empty tree supply found low absent) fun _ _ isPresent => by cases isPresent
        refine ⟨linked, fun t' same => ?_, fun none => by cases none⟩
        obtain rfl := Option.some.inj same
        have cell : frame ((vm.link p rest t i fun _ => 0).mem t i) = p := by
          show frame (TableTree.setEntry _ t i _ t i) = p
          rw [setEntry_self, frame_tableEntry (tree.aligned_head supply)]
        exact (table_link tree supply found low before leaf (i :: place)).trans
          ((if_pos rfl).trans (congrArg some cell.symm))

theorem splitHuge_spec {i j k : Index} (found : tableAt vm.mem cr3 [j, k] = some t)
    (isHuge : huge (vm.mem t i) = true) :
    Extends cr3 vm (splitHuge vm t i).2 ∧
      (∀ t', (splitHuge vm t i).1 = some t' →
        tableAt (splitHuge vm t i).2.mem cr3 [i, j, k] = some t') ∧
      ((splitHuge vm t i).1 = none → (splitHuge vm t i).2.supply = []) := by
  unfold splitHuge pmmAlloc
  cases supply : vm.supply with
  | nil => exact ⟨.refl tree, fun _ some => (by cases some), fun _ => supply⟩
  | cons p rest =>
    dsimp only
    rw [Function.update_idem]
    have low : [j, k].length < 3 := by simp
    have before := child_huge isHuge [j, k].length
    have leaf : ∀ l, child ([j, k].length + 1) (splitEntry (vm.mem t i) l) = none :=
      fun _ => child_three _
    have linked := tree.link supply found (i := i) low before leaf (fun short => absurd short (by simp))
      (walk_link_split tree supply found rfl isHuge) fun supervisor l isPresent => by
        rw [present_splitEntry] at isPresent
        rw [user_splitEntry]
        exact supervisor t i j k found isPresent isHuge
    refine ⟨linked, fun t' same => ?_, fun none => by cases none⟩
    obtain rfl := Option.some.inj same
    exact (table_link tree supply found low before leaf [i, j, k]).trans (if_pos rfl)

theorem nextTable_look (i : Index) (found : tableAt vm.mem cr3 place = some t)
    (low : place.length < 3) (notHuge : place.length = 2 → huge (vm.mem t i) = false) :
    nextTable vm t i false = (tableAt vm.mem cr3 (i :: place), vm) := by
  rw [nextTable, tableAt, table_cons i found]
  by_cases isPresent : present (vm.mem t i) = true
  · rw [if_pos isPresent, child_of_present tree found low notHuge isPresent]
  · rw [if_neg isPresent, if_neg Bool.false_ne_true, child_absent (Bool.eq_false_iff.mpr isPresent)]

/-- Without allocation the walker finds the last table or nothing. -/
theorem pteGet_look (virt : Word) :
    pteGet vm cr3 virt false =
      ((tableAt vm.mem cr3 [i2 virt, i3 virt, i4 virt]).map fun pt => (pt, i1 virt), vm) := by
  have root : tableAt vm.mem cr3 [] = some cr3 := rfl
  unfold pteGet
  rw [nextTable_look tree (i4 virt) root (by simp) (by simp)]
  have upper : ∀ {q : List Index} (i : Index), tableAt vm.mem cr3 q = none →
      tableAt vm.mem cr3 (i :: q) = none := fun i none => table_suffix (List.suffix_cons i _) none
  cases found4 : tableAt vm.mem cr3 [i4 virt] with
  | none => rw [upper _ (upper _ found4)]; rfl
  | some pdpt =>
    dsimp only
    rw [nextTable_look tree (i3 virt) found4 (by simp) (by simp)]
    cases found3 : tableAt vm.mem cr3 [i3 virt, i4 virt] with
    | none => rw [upper _ found3]; rfl
    | some pd =>
      dsimp only
      by_cases isHuge : huge (vm.mem pd (i2 virt)) = true
      · rw [if_pos isHuge, if_neg Bool.false_ne_true, tableAt, table_cons _ found3, child_huge isHuge]
        rfl
      · rw [if_neg isHuge, nextTable_look tree (i2 virt) found3 (by simp)
          fun _ => Bool.eq_false_iff.mpr isHuge]
        cases tableAt vm.mem cr3 [i2 virt, i3 virt, i4 virt] with
        | none => rfl
        | some pt => rfl

/-- The walker adds tables until it has the last one, or there is no memory. -/
theorem pteGet_spec (virt : Word) :
    Extends cr3 vm (pteGet vm cr3 virt true).2 ∧
      (∀ pt i, (pteGet vm cr3 virt true).1 = some (pt, i) → i = i1 virt ∧
        tableAt (pteGet vm cr3 virt true).2.mem cr3 [i2 virt, i3 virt, i4 virt] = some pt) ∧
      ((pteGet vm cr3 virt true).1 = none → (pteGet vm cr3 virt true).2.supply = []) := by
  have root : tableAt vm.mem cr3 [] = some cr3 := rfl
  obtain ⟨first, found4, none4⟩ := nextTable_spec tree (i4 virt) true root (by simp) (by simp)
  unfold pteGet
  cases get4 : nextTable vm cr3 (i4 virt) true with | mk r4 vm4 =>
  rw [get4] at first found4 none4
  cases r4 with
  | none => exact ⟨first, fun _ _ some => (by cases some), fun _ => by simpa using none4 rfl⟩
  | some pdpt =>
    obtain ⟨second, found3, none3⟩ :=
      nextTable_spec first.tree (i3 virt) true (found4 pdpt rfl) (by simp) (by simp)
    dsimp only at second found3 none3 ⊢
    cases get3 : nextTable vm4 pdpt (i3 virt) true with | mk r3 vm3 =>
    rw [get3] at second found3 none3
    cases r3 with
    | none =>
      exact ⟨first.trans second, fun _ _ some => (by cases some), fun _ => by simpa using none3 rfl⟩
    | some pd =>
      dsimp only
      have found := found3 pd rfl
      have upper := first.trans second
      by_cases isHuge : huge (vm3.mem pd (i2 virt)) = true
      · obtain ⟨third, found2, none2⟩ := splitHuge_spec second.tree found isHuge
        rw [if_pos isHuge, if_pos rfl]
        cases get2 : splitHuge vm3 pd (i2 virt) with | mk r2 vm2 =>
        rw [get2] at third found2 none2
        cases r2 with
        | none => exact ⟨upper.trans third, fun _ _ some => (by cases some), fun _ => none2 rfl⟩
        | some pt =>
          refine ⟨upper.trans third, fun pt' i same => ?_, fun none => by cases none⟩
          cases same
          exact ⟨rfl, found2 pt rfl⟩
      · obtain ⟨third, found2, none2⟩ := nextTable_spec second.tree (i2 virt) true found (by simp)
          fun _ => Bool.eq_false_iff.mpr isHuge
        rw [if_neg isHuge]
        cases get2 : nextTable vm3 pd (i2 virt) true with | mk r2 vm2 =>
        rw [get2] at third found2 none2
        cases r2 with
        | none =>
          exact ⟨upper.trans third, fun _ _ some => (by cases some), fun _ => by simpa using none2 rfl⟩
        | some pt =>
          refine ⟨upper.trans third, fun pt' i same => ?_, fun none => by cases none⟩
          cases same
          exact ⟨rfl, found2 pt rfl⟩

end Walker

end Systrix.Vmm
