import Systrix.Kernel.Layout
import Systrix.Vmm.Mapping

/-!
# What a process reads

The bytes behind the addresses of a space, while pages are filled and mapped into it.
-/

namespace Systrix.Vmm

open ByteMemory TableTree

/-- The words of a page with these bytes. -/
def pageWords (bytes : Memory) : Index → Word := fun i => BitVec.ofNat 64 (load bytes (8 * i.toNat) 8)

/-- Byte `k` of a page. -/
def byteAt (words : Index → Word) (k : Nat) : UInt8 :=
  .ofNat ((words (.ofNat 9 (k / 8))).toNat / 256 ^ (k % 8))

theorem load_byte (memory : Memory) {address width j : Nat} (inside : j < width) :
    load memory address width / 256 ^ j % 256 = (memory (address + j)).toNat := by
  induction width generalizing address j with
  | zero => exact absurd inside (Nat.not_lt_zero j)
  | succ width ih =>
      have small := (memory address).toNat_lt
      rw [load]
      cases j with
      | zero =>
          rw [Nat.pow_zero, Nat.div_one, Nat.add_zero address]
          omega
      | succ j =>
          have next : load memory (address + 1) width / 256 ^ j % 256 = (memory (address + 1 + j)).toNat :=
            ih (Nat.lt_of_succ_lt_succ inside)
          rw [Nat.pow_succ', ← Nat.div_div_eq_div_mul, Nat.add_mul_div_left _ _ (by decide : 0 < 256),
            Nat.div_eq_of_lt small, Nat.zero_add, next, Nat.add_right_comm, Nat.add_assoc]

/-- A page has the bytes its words were made of. -/
theorem byteAt_pageWords (bytes : Memory) {k : Nat} (inside : k < pageSize) : byteAt (pageWords bytes) k = bytes k := by
  have page : pageSize = 4096 := rfl
  have index : (BitVec.ofNat 9 (k / 8)).toNat = k / 8 := by
    rw [BitVec.toNat_ofNat, Nat.mod_eq_of_lt (by omega)]
  have low : load bytes (8 * (k / 8)) 8 < 2 ^ 64 := load_lt bytes (8 * (k / 8)) 8
  have byte : load bytes (8 * (k / 8)) 8 / 256 ^ (k % 8) % 256 = (bytes (8 * (k / 8) + k % 8)).toNat :=
    load_byte bytes (Nat.mod_lt k (by decide : 0 < 8))
  rw [Nat.div_add_mod] at byte
  apply UInt8.toNat.inj
  rw [byteAt, pageWords, index, BitVec.toNat_ofNat, Nat.mod_eq_of_lt low, UInt8.toNat_ofNat', ← byte]

/-- What a process reads at an address; `none` when it faults. -/
def processByte (vm : Vm) (cr3 : Word) (va : Nat) : Option UInt8 :=
  match walk vm.mem cr3 (.ofNat 64 va) with
  | none => none
  | some m => if m.perms.ring3 then some (byteAt (vm.mem m.frame) (va % pageSize)) else none

/-! ## Pages -/

/-- Addresses below 2^48 have the same path when they are in the same page. -/
theorem path_eq_iff {a b : Nat} (lowA : a < 2 ^ 48) (lowB : b < 2 ^ 48) :
    path (.ofNat 64 a) = path (.ofNat 64 b) ↔ a / pageSize = b / pageSize := by
  have index : ∀ {v : Nat} (start : Nat), v < 2 ^ 48 →
      ((BitVec.ofNat 64 v).extractLsb' start 9).toNat = v / 2 ^ start % 2 ^ 9 := fun {v} start low => by
    rw [BitVec.extractLsb'_toNat, BitVec.toNat_ofNat, Nat.mod_eq_of_lt (show v < 2 ^ 64 by omega),
      Nat.shiftRight_eq_div_pow]
  have page : pageSize = 4096 := rfl
  simp only [path, i1, i2, i3, i4, List.cons.injEq, and_true, ← BitVec.toNat_inj, index _ lowA, index _ lowB, page]
  omega

theorem walk_path {vm : Vm} {cr3 pt v virt : Word} (found : tableAt vm.mem cr3 [i2 virt, i3 virt, i4 virt] = some pt)
    (same : path v = path virt) : walk vm.mem cr3 v = walk vm.mem cr3 virt := by
  simp only [path, List.cons.injEq, and_true] at same
  obtain ⟨same1, same2, same3, same4⟩ := same
  have found' : tableAt vm.mem cr3 [i2 v, i3 v, i4 v] = some pt := by rw [same2, same3, same4, found]
  rw [walk_found found', walk_found found, above, above, same1, same2, same3, same4]

/-- The address has a last table. -/
def HasTable (vm : Vm) (cr3 virt : Word) : Prop := ∃ pt, tableAt vm.mem cr3 [i2 virt, i3 virt, i4 virt] = some pt

/-- The address is mapped for ring 3 to a page with these bytes, which is no table and was allocated. -/
structure Mapped (vm : Vm) (cr3 virt : Word) (bytes : Memory) : Prop where
  table : HasTable vm cr3 virt
  walks : ∃ m, walk vm.mem cr3 virt = some m ∧ m.perms.ring3 = true ∧ vm.mem m.frame = pageWords bytes ∧
    m.frame ∉ vm.supply ∧ ∀ place, tableAt vm.mem cr3 place ≠ some m.frame

/-- The bytes of a mapped page are what the process reads. -/
theorem Mapped.reads {vm : Vm} {cr3 : Word} {page va : Nat} {bytes : Memory}
    (mapped : Mapped vm cr3 (.ofNat 64 page) bytes) (low : page < 2 ^ 48) (low' : va < 2 ^ 48)
    (same : va / pageSize = page / pageSize) : processByte vm cr3 va = some (bytes (va % pageSize)) := by
  obtain ⟨⟨pt, found⟩, m, isWalk, ring3, content, -, -⟩ := mapped
  have isWalk' := (walk_path found ((path_eq_iff low' low).mpr same)).trans isWalk
  unfold processByte
  rw [isWalk']
  dsimp only
  rw [if_pos ring3, content, byteAt_pageWords bytes (Nat.mod_lt va (by decide))]

section Frame

variable {vm : Vm} {cr3 virt : Word} {bytes : Memory}

theorem HasTable.extends {vm' : Vm} (extend : Extends cr3 vm vm') (table : HasTable vm cr3 virt) :
    HasTable vm' cr3 virt := by
  obtain ⟨pt, found⟩ := table
  exact ⟨pt, extend.tables _ pt found⟩

theorem Mapped.extends {vm' : Vm} (extend : Extends cr3 vm vm') (mapped : Mapped vm cr3 virt bytes) :
    Mapped vm' cr3 virt bytes where
  table := mapped.table.extends extend
  walks := by
    obtain ⟨m, isWalk, ring3, content, taken, noTable⟩ := mapped.walks
    refine ⟨m, (extend.walks virt).trans isWalk, ring3, (extend.pages _ taken noTable).trans content,
      fun member => taken (extend.supply.mem member), fun place found => ?_⟩
    exact (extend.added place _ found).elim (noTable place) taken

/-- A page that is allocated and filled. -/
def Vm.filled (vm : Vm) (p : Word) (rest : List Word) (contents : Index → Word) : Vm :=
  { vm with
    mem := Function.update vm.mem p contents
    supply := rest
    refcnt := Function.update vm.refcnt p 1 }

theorem pmmAlloc_filled {p : Word} {rest : List Word} (supply : vm.supply = p :: rest) :
    ∃ vm', pmmAlloc vm = some (p, vm') ∧ ∀ contents, vm'.setPage p contents = vm.filled p rest contents := by
  refine ⟨{ vm with
    mem := Function.update vm.mem p fun _ => 0
    supply := rest
    refcnt := Function.update vm.refcnt p 1 }, ?_, fun contents => ?_⟩
  · rw [pmmAlloc, supply]
  · rw [Vm.setPage, Function.update_idem]
    rfl

variable {p : Word} {rest : List Word} (supply : vm.supply = p :: rest) (contents : Index → Word)
  (tree : Tree vm cr3)

include supply tree

theorem filled_agree {place : List Index} {t : Word} (found : tableAt vm.mem cr3 place = some t) :
    (vm.filled p rest contents).mem t = vm.mem t :=
  Function.update_of_ne (fun same => tree.fresh_head supply place (found.trans (congrArg some same))) _ _

theorem tableAt_filled (place : List Index) :
    tableAt (vm.filled p rest contents).mem cr3 place = tableAt vm.mem cr3 place :=
  table_congr (fun _ _ found => filled_agree supply contents tree found) place

theorem Tree.filled : Tree (vm.filled p rest contents) cr3 where
  distinct := tree.distinct.congr fun _ _ found => filled_agree supply contents tree found
  small place t i short found isPresent := by
    rw [tableAt_filled supply contents tree] at found
    rw [filled_agree supply contents tree found] at isPresent ⊢
    exact tree.small place t i short found isPresent
  fresh q member place := by
    rw [tableAt_filled supply contents tree]
    exact tree.fresh q (by rw [supply]; exact List.mem_cons_of_mem p member) place
  nodup := (List.nodup_cons.mp (supply ▸ tree.nodup)).2
  aligned q member := tree.aligned q (by rw [supply]; exact List.mem_cons_of_mem p member)

theorem Mapped.filled (mapped : Mapped vm cr3 virt bytes) : Mapped (vm.filled p rest contents) cr3 virt bytes where
  table := by
    obtain ⟨pt, found⟩ := mapped.table
    exact ⟨pt, (tableAt_filled supply contents tree _).trans found⟩
  walks := by
    obtain ⟨m, isWalk, ring3, content, taken, noTable⟩ := mapped.walks
    rw [supply, List.mem_cons, not_or] at taken
    have walks := (walk_congr (fun _ _ found => filled_agree supply contents tree found) virt).1
    refine ⟨m, walks.trans isWalk, ring3, (Function.update_of_ne taken.1 _ _).trans content, taken.2, fun place => ?_⟩
    rw [tableAt_filled supply contents tree]
    exact noTable place

end Frame

/-! ## Mapping a filled page -/

section Leaf

variable {vm : Vm} {cr3 virt pt : Word} (tree : Tree vm cr3)
  (found : tableAt vm.mem cr3 [i2 virt, i3 virt, i4 virt] = some pt)

include tree found

theorem HasTable.setLeaf {v : Word} (e : Word) (table : HasTable vm cr3 v) :
    HasTable (vm.setEntry pt (i1 virt) e) cr3 v := by
  obtain ⟨pt', found'⟩ := table
  exact ⟨pt', (table_setLeaf tree found e _).trans found'⟩

omit tree in
/-- A page that is no table keeps its contents. -/
theorem setLeaf_page (e : Word) {p : Word} (noTable : ∀ place, tableAt vm.mem cr3 place ≠ some p) :
    (vm.setEntry pt (i1 virt) e).mem p = vm.mem p :=
  funext fun _ => setEntry_of_ne e fun same => absurd (same ▸ found) (noTable _)

theorem Mapped.setLeaf {v : Word} {bytes : Memory} (e : Word) (other : path v ≠ path virt)
    (mapped : Mapped vm cr3 v bytes) : Mapped (vm.setEntry pt (i1 virt) e) cr3 v bytes where
  table := mapped.table.setLeaf tree found e
  walks := by
    obtain ⟨m, isWalk, ring3, content, taken, noTable⟩ := mapped.walks
    refine ⟨m, (walk_setLeaf_of_ne tree found e other).trans isWalk, ring3,
      (setLeaf_page found e noTable).trans content, taken, fun place => ?_⟩
    rw [table_setLeaf tree found]
    exact noTable place

/-- The page an entry for ring 3 refers to. -/
theorem mapped_setLeaf {phys flags : Word} {bytes : Memory} (ring3 : (above vm.mem cr3 virt).ring3 = true)
    (isUser : user flags = true) (same : frame (phys ||| flags) = phys) (content : vm.mem phys = pageWords bytes)
    (taken : phys ∉ vm.supply) (noTable : ∀ place, tableAt vm.mem cr3 place ≠ some phys) :
    Mapped (vm.setEntry pt (i1 virt) (mapEntry phys flags)) cr3 virt bytes where
  table := ⟨pt, (table_setLeaf tree found _ _).trans found⟩
  walks := by
    refine ⟨⟨phys, (above vm.mem cr3 virt).and (.ofEntry flags)⟩, ?_, ?_,
      (setLeaf_page found _ noTable).trans content, taken, fun place => ?_⟩
    · rw [walk_setLeaf tree found, leafMapping, present_mapEntry, if_pos rfl, frame_mapEntry, same, perms_mapEntry]
    · simp [Perms.and, Perms.ofEntry, ring3, isUser]
    · rw [table_setLeaf tree found]
      exact noTable place

end Leaf

/-- The walker finds a last table that is there. -/
theorem pteGet_found {vm : Vm} {cr3 virt : Word} (table : HasTable vm cr3 virt) :
    (pteGet vm cr3 virt true).1 ≠ none := by
  obtain ⟨pt, found⟩ := table
  have isTable : ∀ {depth : Nat} {e t : Word}, child depth e = some t →
      present e = true ∧ huge e = false ∧ frame e = t := fun some => by
    unfold child at some
    split at some
    · rename_i table
      exact ⟨table.2.1, table.2.2, Option.some.inj some⟩
    · cases some
  obtain ⟨pd, found3, child2⟩ := table_parent found
  obtain ⟨pdpt, found4, child3⟩ := table_parent found3
  obtain ⟨pml4, root, child4⟩ := table_parent found4
  obtain rfl : cr3 = pml4 := Option.some.inj root
  obtain ⟨present4, -, frame4⟩ := isTable child4
  obtain ⟨present3, -, frame3⟩ := isTable child3
  obtain ⟨present2, huge2, frame2⟩ := isTable child2
  have step : ∀ {t t' : Word} {i : Index}, present (vm.mem t i) = true → frame (vm.mem t i) = t' →
      nextTable vm t i true = (some t', vm) := fun isPresent isFrame => by
    rw [nextTable, if_pos isPresent, isFrame]
  unfold pteGet
  rw [step present4 frame4]
  dsimp only
  rw [step present3 frame3]
  dsimp only
  rw [if_neg (by rw [huge2]; exact Bool.false_ne_true), step present2 frame2]
  exact Option.some_ne_none _

end Systrix.Vmm
