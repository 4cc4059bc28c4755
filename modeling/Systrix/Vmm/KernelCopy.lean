import Systrix.Vmm.Mapping
import Systrix.Vmm.Spaces

/-!
# The kernel in a new space

`vmm_map_kernel` gives a new space tables of its own, when the kernel has no tables of
pages of 4 KB there.
-/

namespace Systrix.Vmm

open TableTree

/-! ## Entries for a copy -/

section Entry

variable {p e : Word} (aligned : frame p = p)

include aligned

/-- A bit outside the address is that of the entry of the kernel. -/
theorem copyEntry_bit {i : Nat} (inside : i < 64) (outside : ptePhysMask.getLsbD i = false)
    (notUser : pteUser.getLsbD i = false) : (p ||| kernelFlags e).getLsbD i = e.getLsbD i := by
  rw [BitVec.getLsbD_or, aligned_bit aligned outside, kernelFlags, BitVec.getLsbD_or, notUser,
    BitVec.getLsbD_and, BitVec.getLsbD_not, outside]
  simp [inside]

theorem present_copyKernel : present (p ||| kernelFlags e) = present e :=
  copyEntry_bit aligned (by decide) (by decide) (by decide)

theorem huge_copyKernel : huge (p ||| kernelFlags e) = huge e :=
  copyEntry_bit aligned (by decide) (by decide) (by decide)

theorem frame_copyKernel : frame (p ||| kernelFlags e) = p := by
  have flags : kernelFlags e &&& ptePhysMask = 0 := by
    have user : pteUser &&& ptePhysMask = 0 := by decide
    have mask : ~~~ptePhysMask &&& ptePhysMask = 0 := by decide
    rw [kernelFlags, BitVec.and_or_distrib_right, user, BitVec.and_assoc, mask]
    simp
  have nothing : p ||| 0 = p := BitVec.or_zero
  rw [frame, BitVec.and_or_distrib_right, flags]
  exact (congrArg (· ||| 0) aligned).trans nothing

theorem child_copyKernel {depth : Nat} (low : depth < 3) (isPresent : present e = true)
    (notHuge : huge e = false) : child depth (p ||| kernelFlags e) = some p := by
  rw [child, present_copyKernel aligned, huge_copyKernel aligned, frame_copyKernel aligned]
  exact if_pos ⟨low, isPresent, notHuge⟩

end Entry

/-! ## The loop -/

theorem supply_loop (kern_pdpt new_pdpt : Word) (is : List Index) (vm : Vm) :
    (is.foldl (copyKernelPd kern_pdpt new_pdpt) vm).supply <:+ vm.supply := by
  induction is generalizing vm with
  | nil => exact List.suffix_rfl
  | cons i is ih =>
    refine (ih _).trans ?_
    unfold copyKernelPd pmmAlloc
    split
    · exact List.suffix_rfl
    · split
      · exact List.suffix_rfl
      · cases supply : vm.supply with
        | nil =>
          show vm.supply <:+ []
          simp [supply]
        | cons p rest => exact List.suffix_cons p rest

/-- The tables the loop copies from are none of those it may write to. -/
structure Source (vm : Vm) (kern_pdpt new_pdpt : Word) : Prop where
  nodup : vm.supply.Nodup
  aligned : ∀ p ∈ vm.supply, frame p = p
  pdpt : kern_pdpt ∉ vm.supply ∧ kern_pdpt ≠ new_pdpt
  small : ∀ i, present (vm.mem kern_pdpt i) = true → huge (vm.mem kern_pdpt i) = false
  pd : ∀ i, present (vm.mem kern_pdpt i) = true →
    frame (vm.mem kern_pdpt i) ∉ vm.supply ∧ frame (vm.mem kern_pdpt i) ≠ new_pdpt
  fresh : new_pdpt ∉ vm.supply

/-- The loop has copied some tables; `copy i` is the new table for index `i`. -/
structure Copied (vm vm' : Vm) (kern_pdpt new_pdpt : Word) (copy : Index → Option Word) : Prop where
  supply : vm'.supply <:+ vm.supply
  taken : ∀ i q, copy i = some q → q ∈ vm.supply ∧ q ∉ vm'.supply
  all : ∀ q ∈ vm.supply, q ∈ vm'.supply ∨ ∃ i, copy i = some q
  inj : ∀ i j q, copy i = some q → copy j = some q → i = j
  entry : ∀ i, vm'.mem new_pdpt i =
    ((copy i).map fun q => q ||| kernelFlags (vm.mem kern_pdpt i)).getD 0
  source : ∀ i q, copy i = some q → present (vm.mem kern_pdpt i) = true ∧
    vm'.mem q = vm.mem (frame (vm.mem kern_pdpt i))
  mem : ∀ t, t ∉ vm.supply → t ≠ new_pdpt → vm'.mem t = vm.mem t
  refcnt : ∀ t, t ∉ vm.supply → vm'.refcnt t = vm.refcnt t
  ram_end : vm'.ram_end = vm.ram_end
  freed : vm'.freed = vm.freed

section Loop

variable {vm vm' : Vm} {kern_pdpt new_pdpt : Word} (isSource : Source vm kern_pdpt new_pdpt)
  {copy : Index → Option Word} (copied : Copied vm vm' kern_pdpt new_pdpt copy)

include isSource copied

/-- One more table, unless there is no memory for it. -/
theorem copied_step {i : Index} (notYet : copy i = none) :
    ∃ copy', Copied vm (copyKernelPd kern_pdpt new_pdpt vm' i) kern_pdpt new_pdpt copy' ∧
      (∀ j, j ≠ i → copy' j = copy j) ∧ (present (vm.mem kern_pdpt i) = true → copy' i = none →
        (copyKernelPd kern_pdpt new_pdpt vm' i).supply = []) := by
  have same : vm'.mem kern_pdpt = vm.mem kern_pdpt :=
    copied.mem kern_pdpt isSource.pdpt.1 isSource.pdpt.2
  unfold copyKernelPd
  rw [same]
  cases isPresent : present (vm.mem kern_pdpt i) with
  | false => exact ⟨copy, copied, fun _ _ => rfl, fun not => by cases not⟩
  | true =>
    rw [isSource.small i isPresent]
    unfold pmmAlloc
    cases supply : vm'.supply with
    | nil => exact ⟨copy, copied, fun _ _ => rfl, fun _ _ => supply⟩
    | cons q rest =>
      have isNew : q ∈ vm.supply := copied.supply.mem (supply ▸ List.mem_cons_self)
      have restOf : rest <:+ vm.supply :=
        (List.suffix_cons q rest).trans (supply ▸ copied.supply)
      have notRest : q ∉ rest :=
        (List.nodup_cons.mp (isSource.nodup.sublist (supply ▸ copied.supply.sublist))).1
      have notPdpt : q ≠ new_pdpt := fun eq => isSource.fresh (eq ▸ isNew)
      have unused : ∀ j q', copy j = some q' → q' ≠ q := fun j q' isCopy eq =>
        (copied.taken j q' isCopy).2 (eq ▸ supply ▸ List.mem_cons_self)
      obtain ⟨oldPd, otherPd⟩ := isSource.pd i isPresent
      have contents : Function.update vm'.mem q (fun _ => 0) (frame (vm.mem kern_pdpt i)) =
          vm.mem (frame (vm.mem kern_pdpt i)) := by
        rw [Function.update_of_ne fun eq => oldPd (by rwa [eq]), copied.mem _ oldPd otherPd]
      have kernelEntry : Function.update vm'.mem q (vm.mem (frame (vm.mem kern_pdpt i))) kern_pdpt =
          vm.mem kern_pdpt := by
        rw [Function.update_of_ne fun eq => isSource.pdpt.1 (by rwa [eq]), same]
      simp only [Bool.not_true, Bool.false_eq_true, if_false, Vm.setPage, Vm.setEntry,
        Function.update_idem]
      rw [contents, kernelEntry]
      refine ⟨Function.update copy i (some q), ?_, fun j other => Function.update_of_ne other _ _,
        fun _ none => by rw [Function.update_self] at none; cases none⟩
      refine ⟨restOf, fun j q' isCopy => ?_, fun q' member => ?_, fun j k q' isJ isK => ?_, fun j => ?_,
        fun j q' isCopy => ?_, fun t old other => ?_, fun t old => ?_, copied.ram_end, copied.freed⟩
      · by_cases eq : j = i
        · subst eq
          rw [Function.update_self] at isCopy
          cases isCopy
          exact ⟨isNew, notRest⟩
        · rw [Function.update_of_ne eq] at isCopy
          obtain ⟨was, not⟩ := copied.taken j q' isCopy
          exact ⟨was, fun member => not (supply ▸ List.mem_cons_of_mem q member)⟩
      · rcases copied.all q' member with left | ⟨j, isCopy⟩
        · rw [supply, List.mem_cons] at left
          exact left.symm.imp_right fun eq => ⟨i, by rw [Function.update_self, eq]⟩
        · refine .inr ⟨j, ?_⟩
          rw [Function.update_of_ne, isCopy]
          rintro rfl
          rw [notYet] at isCopy
          cases isCopy
      · by_cases eqJ : j = i
        · by_cases eqK : k = i
          · exact eqJ.trans eqK.symm
          · subst eqJ
            rw [Function.update_self] at isJ
            rw [Function.update_of_ne eqK] at isK
            exact absurd (Option.some.inj isJ).symm (unused k q' isK)
        · by_cases eqK : k = i
          · subst eqK
            rw [Function.update_self] at isK
            rw [Function.update_of_ne eqJ] at isJ
            exact absurd (Option.some.inj isK).symm (unused j q' isJ)
          · rw [Function.update_of_ne eqJ] at isJ
            rw [Function.update_of_ne eqK] at isK
            exact copied.inj j k q' isJ isK
      · by_cases eq : j = i
        · subst eq
          rw [Function.update_self]
          exact setEntry_self new_pdpt j _
        · rw [Function.update_of_ne eq, ← copied.entry j]
          refine (setEntry_of_ne _ fun _ => eq).trans ?_
          rw [Function.update_of_ne notPdpt.symm]
      · have page : ∀ q'', q'' ≠ new_pdpt →
            setEntry (Function.update vm'.mem q (vm.mem (frame (vm.mem kern_pdpt i)))) new_pdpt i
              (q ||| kernelFlags (vm.mem kern_pdpt i)) q'' =
            Function.update vm'.mem q (vm.mem (frame (vm.mem kern_pdpt i))) q'' := fun q'' other =>
          funext fun l => setEntry_of_ne _ fun eq => absurd eq other
        by_cases eq : j = i
        · subst eq
          rw [Function.update_self] at isCopy
          cases isCopy
          exact ⟨isPresent, (page _ notPdpt).trans (Function.update_self _ _ _)⟩
        · rw [Function.update_of_ne eq] at isCopy
          have notPdpt' : q' ≠ new_pdpt := fun eq' =>
            isSource.fresh (eq' ▸ (copied.taken j q' isCopy).1)
          obtain ⟨was, contents'⟩ := copied.source j q' isCopy
          refine ⟨was, (page _ notPdpt').trans ?_⟩
          rw [Function.update_of_ne (unused j q' isCopy), contents']
      · have notQ : t ≠ q := fun eq => old (eq ▸ isNew)
        refine funext fun l => (setEntry_of_ne _ fun eq => absurd eq other).trans ?_
        rw [Function.update_of_ne notQ, copied.mem t old other]
      · have notQ : t ≠ q := fun eq => old (eq ▸ isNew)
        exact (Function.update_of_ne notQ _ _).trans (copied.refcnt t old)

theorem copied_loop {is : List Index} (nodup : is.Nodup) (notYet : ∀ i ∈ is, copy i = none) :
    ∃ copy', Copied vm (is.foldl (copyKernelPd kern_pdpt new_pdpt) vm') kern_pdpt new_pdpt copy' ∧
      (∀ j, j ∉ is → copy' j = copy j) ∧
      ∀ i ∈ is, present (vm.mem kern_pdpt i) = true → copy' i = none →
        (is.foldl (copyKernelPd kern_pdpt new_pdpt) vm').supply = [] := by
  induction is generalizing vm' copy with
  | nil => exact ⟨copy, copied, fun _ _ => rfl, fun i none => by cases none⟩
  | cons i is ih =>
    rw [List.nodup_cons] at nodup
    obtain ⟨copy₁, next, others, full⟩ := copied_step isSource copied (notYet i List.mem_cons_self)
    have notYet' : ∀ j ∈ is, copy₁ j = none := fun j member => by
      rw [others j fun eq => nodup.1 (eq ▸ member)]
      exact notYet j (List.mem_cons_of_mem i member)
    obtain ⟨copy₂, last, others', full'⟩ := ih next nodup.2 notYet'
    refine ⟨copy₂, last, fun j outside => ?_, fun j member isPresent none => ?_⟩
    · rw [List.mem_cons, not_or] at outside
      rw [others' j outside.2, others j outside.1]
    · rw [List.foldl_cons]
      rcases List.mem_cons.mp member with rfl | later
      · rw [others' j nodup.1] at none
        exact List.suffix_nil.mp (full isPresent none ▸ supply_loop kern_pdpt new_pdpt is _)
      · exact full' j later isPresent none

end Loop

/-! ## A new space -/

/-- What building a space does: its tables are pages that were allocated for it, but for
the last tables, which are those of the kernel. -/
structure Built (vm vm' : Vm) (kernel_cr3 cr3 : Word) : Prop where
  supply : vm'.supply <:+ vm.supply
  root : cr3 ∈ vm.supply
  tables : ∀ p, IsTable vm'.mem cr3 p → p ∈ vm.supply ∧ p ∉ vm'.supply ∨
    ∃ i2 i3, tableAt vm.mem kernel_cr3 [i2, i3, 0] = some p
  shape : Shape vm'.mem cr3
  pages : ∀ p, IsUserPage vm'.mem cr3 p →
    ∃ i1 i2 i3, userPage vm.mem kernel_cr3 [i1, i2, i3, 0] = some p
  shared : ∀ i2 i3 q, tableAt vm'.mem cr3 [i3, 0] = some q →
    tableAt vm'.mem cr3 [i2, i3, 0] = tableAt vm.mem kernel_cr3 [i2, i3, 0]
  mem : ∀ t, t ∉ vm.supply → vm'.mem t = vm.mem t
  refcnt : ∀ t, t ∉ vm.supply → vm'.refcnt t = vm.refcnt t
  ram_end : vm'.ram_end = vm.ram_end
  freed : vm'.freed = vm.freed

theorem noPage_of_short {mem : Pages} {cr3 : Word}
    (short : ∀ place t, tableAt mem cr3 place = some t → place.length < 3) (p : Word) :
    ¬ IsUserPage mem cr3 p := by
  rintro ⟨q, isPage⟩
  have none : tableAt mem cr3 [q.2.2.1, q.2.1, q.1] = none := by
    cases found : tableAt mem cr3 [q.2.2.1, q.2.1, q.1] with
    | none => rfl
    | some t => exact absurd (short _ t found) (by simp)
  rw [Slot.place, userPage_none none] at isPage
  cases isPage

theorem shape_empty {mem : Pages} {cr3 : Word} (empty : ∀ i, present (mem cr3 i) = false) :
    Shape mem cr3 where
  distinct p q t foundP foundQ := (tableAt_empty empty foundP).1.trans (tableAt_empty empty foundQ).1.symm
  small place t i _ found isPresent := by
    rw [(tableAt_empty empty found).2, empty i] at isPresent
    cases isPresent
  supervisor t i j k found := by
    cases (tableAt_empty empty found).1

/-- A space without tables is one. -/
theorem built_empty {vm : Vm} (kernel_cr3 : Word) {cr3 : Word} {rest : List Word}
    (supply : vm.supply = cr3 :: rest) (nodup : vm.supply.Nodup) {vm' : Vm}
    (isNew : pmmAlloc vm = some (cr3, vm')) : Built vm vm' kernel_cr3 cr3 := by
  unfold pmmAlloc at isNew
  rw [supply] at isNew
  cases isNew
  have notRest : cr3 ∉ rest := (List.nodup_cons.mp (supply ▸ nodup)).1
  have isRoot : cr3 ∈ vm.supply := supply ▸ List.mem_cons_self
  have empty : ∀ i, present (Function.update vm.mem cr3 (fun _ => 0) cr3 i) = false := fun i => by
    rw [Function.update_self]
    decide
  have other : ∀ t, t ∉ vm.supply → t ≠ cr3 := fun t unused eq => unused (eq ▸ isRoot)
  refine ⟨supply ▸ List.suffix_cons cr3 rest, isRoot, fun p ⟨place, found⟩ => .inl ?_, shape_empty empty,
    fun p page => absurd page (noPage_of_short (fun place t found => ?_) p), fun i2 i3 q found => ?_,
    fun t unused => Function.update_of_ne (other t unused) _ _,
    fun t unused => Function.update_of_ne (other t unused) _ _, rfl, rfl⟩
  · rw [(tableAt_empty empty found).2]
    exact ⟨isRoot, notRest⟩
  · rw [(tableAt_empty empty found).1]
    decide
  · cases (tableAt_empty empty found).1

/-- The tables of a space with one table of the second level. -/
theorem tableAt_copy {mem : Pages} {cr3 pdpt : Word} {copy : Index → Option Word}
    {last : Index → Index → Option Word}
    (root : ∀ i, child 0 (mem cr3 i) = if i = 0 then some pdpt else none)
    (second : ∀ i, child 1 (mem pdpt i) = copy i)
    (third : ∀ i q j, copy i = some q → child 2 (mem q j) = last j i) {q : List Index} {t : Word}
    (found : tableAt mem cr3 q = some t) :
    q = [] ∧ t = cr3 ∨ q = [0] ∧ t = pdpt ∨ (∃ i, q = [i, 0] ∧ copy i = some t) ∨
      ∃ j i, q = [j, i, 0] ∧ last j i = some t := by
  induction q generalizing t with
  | nil => exact .inl ⟨rfl, (Option.some.inj found).symm⟩
  | cons i q ih =>
    obtain ⟨above, foundAbove, isChild⟩ := table_parent found
    rcases ih foundAbove with ⟨rfl, rfl⟩ | ⟨rfl, rfl⟩ | ⟨j, rfl, isCopy⟩ | ⟨j, k, rfl, -⟩
    · rw [List.length_nil, root] at isChild
      split at isChild
      · rename_i zero
        exact .inr (.inl ⟨by rw [zero], (Option.some.inj isChild).symm⟩)
      · cases isChild
    · rw [List.length_singleton, second] at isChild
      exact .inr (.inr (.inl ⟨i, rfl, isChild⟩))
    · rw [show [j, 0].length = 2 from rfl, third j above i isCopy] at isChild
      exact .inr (.inr (.inr ⟨i, j, rfl, isChild⟩))
    · rw [show [j, k, 0].length = 3 from rfl, child_three] at isChild
      cases isChild

/-- A space with such tables, new ones but for the last tables, is built. -/
theorem built_of_tables {vm vm' : Vm} {kernel_cr3 cr3 pdpt : Word} {copy : Index → Option Word}
    (shape : Shape vm.mem kernel_cr3) (kernel : ∀ p, IsTable vm.mem kernel_cr3 p → p ∉ vm.supply)
    (root : ∀ i, child 0 (vm'.mem cr3 i) = if i = 0 then some pdpt else none)
    (second : ∀ i, child 1 (vm'.mem pdpt i) = copy i)
    (third : ∀ i q j, copy i = some q → child 2 (vm'.mem q j) = tableAt vm.mem kernel_cr3 [j, i, 0])
    (small : ∀ i, (present (vm'.mem cr3 i) = true → huge (vm'.mem cr3 i) = false) ∧
      (present (vm'.mem pdpt i) = true → huge (vm'.mem pdpt i) = false))
    (source : ∀ i q, copy i = some q →
      ∃ t, tableAt vm.mem kernel_cr3 [i, 0] = some t ∧ vm'.mem q = vm.mem t)
    (inj : ∀ i j q, copy i = some q → copy j = some q → i = j)
    (apart : cr3 ≠ pdpt ∧ ∀ i q, copy i = some q → q ≠ cr3 ∧ q ≠ pdpt)
    (new : ∀ p, p = cr3 ∨ p = pdpt ∨ (∃ i, copy i = some p) → p ∈ vm.supply ∧ p ∉ vm'.supply)
    (supply : vm'.supply <:+ vm.supply) (mem : ∀ t, t ∉ vm.supply → vm'.mem t = vm.mem t)
    (refcnt : ∀ t, t ∉ vm.supply → vm'.refcnt t = vm.refcnt t) (ram_end : vm'.ram_end = vm.ram_end)
    (freed : vm'.freed = vm.freed) :
    Built vm vm' kernel_cr3 cr3 ∧ ∀ i, tableAt vm'.mem cr3 [i, 0] = copy i := by
  have tables : ∀ {q : List Index} {t : Word}, tableAt vm'.mem cr3 q = some t →
      q = [] ∧ t = cr3 ∨ q = [0] ∧ t = pdpt ∨ (∃ i, q = [i, 0] ∧ copy i = some t) ∨
        ∃ j i, q = [j, i, 0] ∧ tableAt vm.mem kernel_cr3 [j, i, 0] = some t := fun {q t} =>
    tableAt_copy (q := q) (t := t) root second third
  have pdptFound : tableAt vm'.mem cr3 [0] = some pdpt := (root 0).trans (if_pos rfl)
  have pdFound : ∀ i, tableAt vm'.mem cr3 [i, 0] = copy i := fun i =>
    (table_cons i pdptFound).trans (second i)
  have lastFound : ∀ j i q, copy i = some q →
      tableAt vm'.mem cr3 [j, i, 0] = tableAt vm.mem kernel_cr3 [j, i, 0] := fun j i q isCopy =>
    (table_cons j ((pdFound i).trans isCopy)).trans (third i q j isCopy)
  have old : ∀ {j i t}, tableAt vm.mem kernel_cr3 [j, i, 0] = some t → t ∉ vm.supply := fun found =>
    kernel _ ⟨_, found⟩
  refine ⟨⟨supply, (new cr3 (.inl rfl)).1, fun p ⟨place, found⟩ => ?_, ⟨fun p q t foundP foundQ => ?_,
    fun place t i short found => ?_, fun t i j k found isPresent isHuge => ?_⟩, fun p ⟨q, isPage⟩ => ?_,
    fun i2 i3 q found => ?_, mem, refcnt, ram_end, freed⟩, pdFound⟩
  · rcases tables found with ⟨-, same⟩ | ⟨-, same⟩ | ⟨i, -, isCopy⟩ | ⟨j, i, -, isLast⟩
    · exact .inl (new p (.inl same))
    · exact .inl (new p (.inr (.inl same)))
    · exact .inl (new p (.inr (.inr ⟨i, isCopy⟩)))
    · exact .inr ⟨j, i, isLast⟩
  · rcases tables foundP with ⟨rfl, rfl⟩ | ⟨rfl, rfl⟩ | ⟨i, rfl, isCopy⟩ | ⟨j, i, rfl, isLast⟩
    · rcases tables foundQ with ⟨rfl, -⟩ | ⟨-, same⟩ | ⟨j, -, isCopy'⟩ | ⟨_, _, -, isLast'⟩
      · rfl
      · exact absurd same apart.1
      · exact absurd rfl (apart.2 j _ isCopy').1
      · exact absurd (new _ (.inl rfl)).1 (old isLast')
    · rcases tables foundQ with ⟨-, same⟩ | ⟨rfl, -⟩ | ⟨j, -, isCopy'⟩ | ⟨_, _, -, isLast'⟩
      · exact absurd same.symm apart.1
      · rfl
      · exact absurd rfl (apart.2 j _ isCopy').2
      · exact absurd (new _ (.inr (.inl rfl))).1 (old isLast')
    · rcases tables foundQ with ⟨-, same⟩ | ⟨-, same⟩ | ⟨j, rfl, isCopy'⟩ | ⟨_, _, -, isLast'⟩
      · exact absurd same (apart.2 i t isCopy).1
      · exact absurd same (apart.2 i t isCopy).2
      · rw [inj i j t isCopy isCopy']
      · exact absurd (new _ (.inr (.inr ⟨i, isCopy⟩))).1 (old isLast')
    · rcases tables foundQ with ⟨-, same⟩ | ⟨-, same⟩ | ⟨k, -, isCopy'⟩ | ⟨j', i', rfl, isLast'⟩
      · exact absurd (new t (.inl same)).1 (old isLast)
      · exact absurd (new t (.inr (.inl same))).1 (old isLast)
      · exact absurd (new t (.inr (.inr ⟨k, isCopy'⟩))).1 (old isLast)
      · exact shape.distinct _ _ t isLast isLast'
  · rcases tables found with ⟨-, rfl⟩ | ⟨-, rfl⟩ | ⟨j, rfl, -⟩ | ⟨_, _, rfl, -⟩
    · exact (small i).1
    · exact (small i).2
    · exact absurd short (by simp)
    · exact absurd short (by simp)
  · rcases tables found with ⟨not, -⟩ | ⟨not, -⟩ | ⟨l, -, isCopy⟩ | ⟨_, _, not, -⟩
    · cases not
    · cases not
    · obtain ⟨t', isPd, same⟩ := source l t isCopy
      rw [same] at isPresent isHuge ⊢
      exact shape.supervisor t' i l 0 isPd isPresent isHuge
    · cases not
  · obtain ⟨i4, i3, i2, i1⟩ := q
    cases found : tableAt vm'.mem cr3 [i2, i3, i4] with
    | none =>
      rw [Slot.place, userPage_none found] at isPage
      cases isPage
    | some t =>
      rcases tables found with ⟨not, -⟩ | ⟨not, -⟩ | ⟨_, not, -⟩ | ⟨_, _, same, isLast⟩
      · cases not
      · cases not
      · cases not
      · cases same
        refine ⟨i1, i2, i3, ?_⟩
        have entry' : entryAt vm'.mem cr3 [i1, i2, i3, 0] = some (vm'.mem t i1) := entry_cons i1 found
        have entry : entryAt vm.mem kernel_cr3 [i1, i2, i3, 0] = some (vm.mem t i1) := entry_cons i1 isLast
        rw [Slot.place, userPage, entry', mem t (old isLast)] at isPage
        rw [userPage, entry]
        exact isPage
  · exact lastFound i2 i3 q ((pdFound i3).symm.trans found)

section Kernel

variable {vm : Vm} {kernel_cr3 : Word} (shape : Shape vm.mem kernel_cr3)
  (kernel : ∀ p, IsTable vm.mem kernel_cr3 p → p ∉ vm.supply)
  (nodup : vm.supply.Nodup) (aligned : ∀ p ∈ vm.supply, frame p = p)
  {cr3 pdpt : Word} {rest : List Word} (supply : vm.supply = cr3 :: pdpt :: rest)
  (isPresent : present (vm.mem kernel_cr3 0) = true)

include shape isPresent in
theorem kernPdpt_found : tableAt vm.mem kernel_cr3 [0] = some (frame (vm.mem kernel_cr3 0)) :=
  if_pos ⟨by decide, isPresent, shape.small [] kernel_cr3 0 (by decide) rfl isPresent⟩

include shape isPresent in
theorem kernPd_found {i : Index} (isPd : present (vm.mem (frame (vm.mem kernel_cr3 0)) i) = true) :
    tableAt vm.mem kernel_cr3 [i, 0] = some (frame (vm.mem (frame (vm.mem kernel_cr3 0)) i)) := by
  have found := kernPdpt_found shape isPresent
  exact (table_cons i found).trans
    (if_pos ⟨by decide, isPd, shape.small [0] _ i (by decide) found isPd⟩)

/-- The memory after the first two tables of a new space were allocated. -/
def Vm.twoTables (vm : Vm) (cr3 pdpt : Word) (rest : List Word) : Vm :=
  { vm with
    mem := Function.update (Function.update vm.mem cr3 fun _ => 0) pdpt fun _ => 0
    supply := rest
    refcnt := Function.update (Function.update vm.refcnt cr3 1) pdpt 1 }

/-- Before the loop no table is copied. -/
theorem copied_start (vm : Vm) (cr3 pdpt : Word) (rest : List Word) (kern_pdpt : Word) :
    Copied (vm.twoTables cr3 pdpt rest) (vm.twoTables cr3 pdpt rest) kern_pdpt pdpt fun _ => none := by
  have zero : (vm.twoTables cr3 pdpt rest).mem pdpt = fun _ => 0 := Function.update_self pdpt _ _
  refine ⟨List.suffix_rfl, fun _ _ none => (by cases none), fun _ member => .inl member,
    fun _ _ _ none => (by cases none), fun i => ?_, fun _ _ none => (by cases none), fun _ _ _ => rfl,
    fun _ _ => rfl, rfl, rfl⟩
  rw [zero]
  rfl

section Two

variable {t : Word} (unused : t ∉ vm.supply)

include supply unused

theorem twoTables_mem : (vm.twoTables cr3 pdpt rest).mem t = vm.mem t := by
  rw [supply, List.mem_cons, List.mem_cons, not_or, not_or] at unused
  show Function.update _ pdpt _ t = _
  rw [Function.update_of_ne unused.2.1, Function.update_of_ne unused.1]

theorem twoTables_refcnt : (vm.twoTables cr3 pdpt rest).refcnt t = vm.refcnt t := by
  rw [supply, List.mem_cons, List.mem_cons, not_or, not_or] at unused
  show Function.update _ pdpt _ t = _
  rw [Function.update_of_ne unused.2.1, Function.update_of_ne unused.1]

end Two

include nodup supply in
/-- The first table of a copy of the kernel. -/
theorem copy_root {vm₃ : Vm} {copy : Index → Option Word}
    (copied : Copied (vm.twoTables cr3 pdpt rest) vm₃ (frame (vm.mem kernel_cr3 0)) pdpt copy) (i : Index) :
    (vm₃.setEntry cr3 0 (pdpt ||| kernelFlags (vm.mem kernel_cr3 0))).mem cr3 i =
      if i = 0 then pdpt ||| kernelFlags (vm.mem kernel_cr3 0) else 0 := by
  rw [supply, List.nodup_cons, List.nodup_cons, List.mem_cons, not_or] at nodup
  obtain ⟨⟨different, rootFresh⟩, -, -⟩ := nodup
  split
  · rename_i zero
    rw [zero]
    exact setEntry_self cr3 0 _
  · rename_i other
    refine (setEntry_of_ne _ fun _ => other).trans ?_
    have zero : (vm.twoTables cr3 pdpt rest).mem cr3 = fun _ => 0 := by
      show Function.update (Function.update vm.mem cr3 fun _ => 0) pdpt (fun _ => 0) cr3 = _
      rw [Function.update_of_ne different, Function.update_self]
    rw [copied.mem cr3 rootFresh different, zero]

include shape kernel nodup supply isPresent in
/-- The second table of a copy of the kernel. -/
theorem copy_pdpt {vm₃ : Vm} {copy : Index → Option Word}
    (copied : Copied (vm.twoTables cr3 pdpt rest) vm₃ (frame (vm.mem kernel_cr3 0)) pdpt copy) (i : Index) :
    (vm₃.setEntry cr3 0 (pdpt ||| kernelFlags (vm.mem kernel_cr3 0))).mem pdpt i =
      ((copy i).map fun q => q ||| kernelFlags (vm.mem (frame (vm.mem kernel_cr3 0)) i)).getD 0 := by
  have old := kernel _ ⟨_, kernPdpt_found shape isPresent⟩
  rw [supply, List.nodup_cons, List.mem_cons, not_or] at nodup
  have page : (vm₃.setEntry cr3 0 (pdpt ||| kernelFlags (vm.mem kernel_cr3 0))).mem pdpt = vm₃.mem pdpt :=
    funext fun i => setEntry_of_ne _ fun eq => absurd eq.symm nodup.1.1
  rw [page, copied.entry i, twoTables_mem supply old]

include shape kernel nodup aligned supply isPresent

theorem source_twoTables :
    Source (vm.twoTables cr3 pdpt rest) (frame (vm.mem kernel_cr3 0)) pdpt := by
  have inSupply : ∀ p ∈ rest, p ∈ vm.supply := fun p member => by
    rw [supply]
    exact List.mem_cons_of_mem cr3 (List.mem_cons_of_mem pdpt member)
  have pdptNew : pdpt ∈ vm.supply := supply ▸ List.mem_cons_of_mem cr3 List.mem_cons_self
  have found := kernPdpt_found shape isPresent
  have old := kernel _ ⟨_, found⟩
  rw [supply, List.nodup_cons, List.nodup_cons] at nodup
  refine ⟨nodup.2.2, fun p member => aligned p (inSupply p member),
    ⟨fun member => old (inSupply _ member), fun eq => old (eq ▸ pdptNew)⟩, fun i isPd => ?_,
    fun i isPd => ?_, nodup.2.1⟩
  · rw [twoTables_mem supply old] at isPd ⊢
    exact shape.small [0] _ i (by decide) found isPd
  · rw [twoTables_mem supply old] at isPd ⊢
    have pdOld := kernel _ ⟨_, kernPd_found shape isPresent isPd⟩
    exact ⟨fun member => pdOld (inSupply _ member), fun eq => pdOld (eq ▸ pdptNew)⟩

/-- The kernel copied into a space that is still empty. -/
theorem built_copy {vm₃ : Vm} {copy : Index → Option Word}
    (copied : Copied (vm.twoTables cr3 pdpt rest) vm₃ (frame (vm.mem kernel_cr3 0)) pdpt copy) :
    Built vm (vm₃.setEntry cr3 0 (pdpt ||| kernelFlags (vm.mem kernel_cr3 0))) kernel_cr3 cr3 ∧
      ∀ i, tableAt (vm₃.setEntry cr3 0 (pdpt ||| kernelFlags (vm.mem kernel_cr3 0))).mem cr3 [i, 0] =
        copy i := by
  have isSource := source_twoTables shape kernel nodup aligned supply isPresent
  have notHuge := shape.small [] kernel_cr3 0 (by decide) rfl isPresent
  have old := kernel _ ⟨_, kernPdpt_found shape isPresent⟩
  have inSupply : ∀ p ∈ rest, p ∈ vm.supply := fun p member => by
    rw [supply]
    exact List.mem_cons_of_mem cr3 (List.mem_cons_of_mem pdpt member)
  have rootNew : cr3 ∈ vm.supply := supply ▸ List.mem_cons_self
  have pdptNew : pdpt ∈ vm.supply := supply ▸ List.mem_cons_of_mem cr3 List.mem_cons_self
  have fresh := nodup
  rw [supply, List.nodup_cons, List.nodup_cons, List.mem_cons, not_or] at fresh
  obtain ⟨⟨different, rootFresh⟩, pdptFresh, -⟩ := fresh
  have absent : present 0#64 = false := by decide
  have page : ∀ t, t ≠ cr3 → (vm₃.setEntry cr3 0 (pdpt ||| kernelFlags (vm.mem kernel_cr3 0))).mem t =
      vm₃.mem t := fun t other => funext fun i => setEntry_of_ne _ fun eq => absurd eq other
  have rootEntry := copy_root nodup supply copied
  have pdptEntry := copy_pdpt shape kernel nodup supply isPresent copied
  have isCopied : ∀ i q, copy i = some q → q ∈ rest ∧
      present (vm.mem (frame (vm.mem kernel_cr3 0)) i) = true ∧
      huge (vm.mem (frame (vm.mem kernel_cr3 0)) i) = false ∧
      (vm₃.setEntry cr3 0 (pdpt ||| kernelFlags (vm.mem kernel_cr3 0))).mem q =
        vm.mem (frame (vm.mem (frame (vm.mem kernel_cr3 0)) i)) := fun i q isCopy => by
    have inRest := (copied.taken i q isCopy).1
    obtain ⟨isPd, same⟩ := copied.source i q isCopy
    have notHuge' := isSource.small i isPd
    rw [twoTables_mem supply old] at isPd same notHuge'
    rw [twoTables_mem supply (kernel _ ⟨_, kernPd_found shape isPresent isPd⟩)] at same
    exact ⟨inRest, isPd, notHuge', (page q fun eq => rootFresh (eq ▸ inRest)).trans same⟩
  refine built_of_tables shape kernel (fun i => ?_) (fun i => ?_)
    (fun i q j isCopy => ?_) (fun i => ⟨?_, ?_⟩) (fun i q isCopy => ?_) copied.inj
    ⟨different, fun i q isCopy => ?_⟩ (fun p isNew => ?_) ?_ (fun t unused => ?_) (fun t unused => ?_)
    copied.ram_end copied.freed
  · rw [rootEntry]
    split
    · exact child_copyKernel (aligned pdpt pdptNew) (by decide) isPresent notHuge
    · exact child_absent absent 0
  · rw [pdptEntry]
    cases isCopy : copy i with
    | none => exact child_absent absent 1
    | some q =>
      obtain ⟨inRest, isPd, notHuge', -⟩ := isCopied i q isCopy
      exact child_copyKernel (aligned q (inSupply q inRest)) (by decide) isPd notHuge'
  · obtain ⟨-, isPd, -, same⟩ := isCopied i q isCopy
    rw [same]
    exact (table_cons j (kernPd_found shape isPresent isPd)).symm
  · rw [rootEntry]
    split
    · rw [huge_copyKernel (aligned pdpt pdptNew)]
      exact fun _ => notHuge
    · exact fun _ => (by decide : huge 0 = false)
  · rw [pdptEntry]
    cases isCopy : copy i with
    | none => exact fun _ => (by decide : huge 0 = false)
    | some q =>
      obtain ⟨inRest, -, notHuge', -⟩ := isCopied i q isCopy
      rw [Option.map_some, Option.getD_some, huge_copyKernel (aligned q (inSupply q inRest))]
      exact fun _ => notHuge'
  · obtain ⟨-, isPd, -, same⟩ := isCopied i q isCopy
    exact ⟨_, kernPd_found shape isPresent isPd, same⟩
  · have inRest := (isCopied i q isCopy).1
    exact ⟨fun eq => rootFresh (eq ▸ inRest), fun eq => pdptFresh (eq ▸ inRest)⟩
  · rcases isNew with rfl | rfl | ⟨i, isCopy⟩
    · exact ⟨rootNew, fun member => rootFresh (copied.supply.mem member)⟩
    · exact ⟨pdptNew, fun member => pdptFresh (copied.supply.mem member)⟩
    · obtain ⟨inRest, gone⟩ := copied.taken i p isCopy
      exact ⟨inSupply p inRest, gone⟩
  · rw [supply]
    exact copied.supply.trans ⟨[cr3, pdpt], rfl⟩
  · rw [page t fun eq => unused (eq ▸ rootNew), copied.mem t (fun member => unused (inSupply t member))
      fun eq => unused (eq ▸ pdptNew), twoTables_mem supply unused]
  · exact (copied.refcnt t fun member => unused (inSupply t member)).trans
      (twoTables_refcnt supply unused)

end Kernel

theorem pmmAlloc_cons {vm : Vm} {p : Word} {rest : List Word} (supply : vm.supply = p :: rest) :
    pmmAlloc vm = some (p, { vm with
      mem := Function.update vm.mem p fun _ => 0
      supply := rest
      refcnt := Function.update vm.refcnt p 1 }) := by
  rw [pmmAlloc, supply]

/-- With two pages for the first tables the loop runs. -/
theorem vmmMapKernel_eq {vm : Vm} {kernel_cr3 cr3 pdpt : Word} {rest : List Word}
    (supply : vm.supply = cr3 :: pdpt :: rest) (old : kernel_cr3 ∉ vm.supply)
    (isPresent : present (vm.mem kernel_cr3 0) = true) {vm₁ vm₃ : Vm}
    (isNew : vmmCreateSpace vm = some (cr3, vm₁))
    (isLoop : indices.foldl (copyKernelPd (frame (vm.mem kernel_cr3 0)) pdpt)
      (vm.twoTables cr3 pdpt rest) = vm₃) :
    vmmMapKernel vm₁ kernel_cr3 cr3 =
      vm₃.setEntry cr3 0 (pdpt ||| kernelFlags (vm₃.mem kernel_cr3 0)) := by
  have isFirst := Prod.mk.inj (Option.some.inj ((pmmAlloc_cons supply).symm.trans isNew))
  have root : vm₁.mem kernel_cr3 = vm.mem kernel_cr3 := by
    rw [← isFirst.2]
    exact Function.update_of_ne (fun eq => old (by rw [supply, eq]; exact List.mem_cons_self)) _ _
  have second : pmmAlloc vm₁ = some (pdpt, vm.twoTables cr3 pdpt rest) := by
    rw [pmmAlloc, ← isFirst.2]
    rfl
  unfold vmmMapKernel
  rw [root, if_pos isPresent, second]
  dsimp only
  rw [twoTables_mem supply old, isLoop]

/-- What `vmm_map_kernel` does to a new space: nothing, when the kernel has no table of the second level or there is no
page for its copy, or it copies as many tables of the third level as there are pages for. -/
theorem vmmMapKernel_cases {vm : Vm} {kernel_cr3 : Word} (shape : Shape vm.mem kernel_cr3)
    (kernel : ∀ p, IsTable vm.mem kernel_cr3 p → p ∉ vm.supply)
    (nodup : vm.supply.Nodup) (aligned : ∀ p ∈ vm.supply, frame p = p) {cr3 : Word} {vm₁ : Vm}
    (isNew : vmmCreateSpace vm = some (cr3, vm₁)) :
    (vmmMapKernel vm₁ kernel_cr3 cr3 = vm₁ ∧ Built vm vm₁ kernel_cr3 cr3 ∧ (∀ i, present (vm₁.mem cr3 i) = false) ∧
        (present (vm.mem kernel_cr3 0) = true → vm.supply.length ≤ 1)) ∨
      ∃ pdpt rest vm₃ copy, vm.supply = cr3 :: pdpt :: rest ∧ present (vm.mem kernel_cr3 0) = true ∧
        Copied (vm.twoTables cr3 pdpt rest) vm₃ (frame (vm.mem kernel_cr3 0)) pdpt copy ∧
        (∀ i, present (vm.mem (frame (vm.mem kernel_cr3 0)) i) = true → copy i = none → vm₃.supply = []) ∧
        vmmMapKernel vm₁ kernel_cr3 cr3 = vm₃.setEntry cr3 0 (pdpt ||| kernelFlags (vm.mem kernel_cr3 0)) := by
  have rootOld := kernel kernel_cr3 ⟨[], rfl⟩
  cases supply : vm.supply with
  | nil =>
    unfold vmmCreateSpace pmmAlloc at isNew
    rw [supply] at isNew
    cases isNew
  | cons p rest =>
    obtain ⟨rfl, isFirst⟩ := Prod.mk.inj (Option.some.inj ((pmmAlloc_cons supply).symm.trans isNew))
    have built := built_empty kernel_cr3 supply nodup isNew
    have root : vm₁.mem kernel_cr3 = vm.mem kernel_cr3 := built.mem kernel_cr3 rootOld
    have empty : ∀ i, present (vm₁.mem p i) = false := fun i => by
      rw [← isFirst]
      show present (Function.update vm.mem p (fun _ => 0) p i) = false
      rw [Function.update_self]
      decide
    by_cases isPresent : present (vm.mem kernel_cr3 0) = true
    · cases rest with
      | nil =>
        have none : pmmAlloc vm₁ = none := by
          rw [pmmAlloc, ← isFirst]
        rw [vmmMapKernel, root, if_pos isPresent, none]
        exact .inl ⟨rfl, built, empty, fun _ => Nat.le_refl 1⟩
      | cons pdpt rest =>
        have notPdpt : kernel_cr3 ≠ pdpt := fun eq =>
          rootOld (by rw [supply, eq]; exact List.mem_cons_of_mem p List.mem_cons_self)
        have notRest : kernel_cr3 ∉ rest := fun member =>
          rootOld (by rw [supply]; exact List.mem_cons_of_mem p (List.mem_cons_of_mem pdpt member))
        have old := kernel _ ⟨_, kernPdpt_found shape isPresent⟩
        have isSource := source_twoTables shape kernel nodup aligned supply isPresent
        obtain ⟨copy, copied, -, full⟩ := copied_loop isSource (copied_start vm p pdpt rest _)
          nodup_indices fun _ _ => rfl
        refine .inr ⟨pdpt, rest, _, copy, rfl, isPresent, copied, fun i isPd missing => ?_, ?_⟩
        · exact full i (mem_indices i) (by rwa [twoTables_mem supply old]) missing
        · rw [vmmMapKernel_eq supply rootOld isPresent isNew rfl, copied.mem kernel_cr3 notRest notPdpt,
            twoTables_mem supply rootOld]
    · rw [vmmMapKernel, root, if_neg isPresent]
      exact .inl ⟨rfl, built, empty, fun yes => absurd yes isPresent⟩

/-- A space with the kernel in it. -/
theorem vmmMapKernel_built {vm : Vm} {kernel_cr3 : Word} (shape : Shape vm.mem kernel_cr3)
    (kernel : ∀ p, IsTable vm.mem kernel_cr3 p → p ∉ vm.supply)
    (nodup : vm.supply.Nodup) (aligned : ∀ p ∈ vm.supply, frame p = p) {cr3 : Word} {vm₁ : Vm}
    (isNew : vmmCreateSpace vm = some (cr3, vm₁)) :
    Built vm (vmmMapKernel vm₁ kernel_cr3 cr3) kernel_cr3 cr3 ∧
      ∀ (used : List Index), (∀ i, tableAt vm.mem kernel_cr3 [i, 0] ≠ none → i ∈ used) →
        used.length + 2 < vm.supply.length → ∀ i, tableAt vm.mem kernel_cr3 [i, 0] ≠ none →
          tableAt (vmmMapKernel vm₁ kernel_cr3 cr3).mem cr3 [i, 0] ≠ none := by
  rcases vmmMapKernel_cases shape kernel nodup aligned isNew with
    ⟨same, built, -, short⟩ | ⟨pdpt, rest, vm₃, copy, supply, isPresent, copied, full, result⟩
  · rw [same]
    refine ⟨built, fun used _ enough i isPd => absurd ?_ isPd⟩
    refine table_suffix (p := [0]) ⟨[i], rfl⟩ (child_absent (Bool.eq_false_iff.mpr fun isPresent => ?_) 0)
    have := short isPresent
    omega
  · obtain ⟨built, copies⟩ := built_copy shape kernel nodup aligned supply isPresent copied
    rw [result]
    refine ⟨built, fun used isUsed enough i isPd missing => ?_⟩
    have old := kernel _ ⟨_, kernPdpt_found shape isPresent⟩
    have isPd' : ∀ j, present (vm.mem (frame (vm.mem kernel_cr3 0)) j) = true →
        tableAt vm.mem kernel_cr3 [j, 0] ≠ none := fun j isPd none => by
      rw [kernPd_found shape isPresent isPd] at none
      cases none
    have iPresent : present (vm.mem (frame (vm.mem kernel_cr3 0)) i) = true := by
      refine Bool.of_not_eq_false fun absent => isPd ?_
      exact (table_cons i (kernPdpt_found shape isPresent)).trans (child_absent absent 1)
    -- there were not enough pages, so all of them are copies
    have exhausted := full i iPresent ((copies i).symm.trans missing)
    have subset : rest ⊆ used.filterMap copy := fun q member => by
      rcases copied.all q member with left | ⟨j, isCopy⟩
      · rw [exhausted] at left
        cases left
      · have jPresent := (copied.source j q isCopy).1
        rw [twoTables_mem supply old] at jPresent
        exact List.mem_filterMap.mpr ⟨j, isUsed j (isPd' j jPresent), isCopy⟩
    have few := ((supply ▸ nodup).of_cons.of_cons.subperm subset).length_le
    have short := List.length_filterMap_le copy used
    rw [supply, List.length_cons, List.length_cons] at enough
    omega

/-! ### Addresses for ring 3 -/

/-- Tables that are all for ring 3 forbid it nowhere. -/
theorem ring3_of_tables {mem : Pages} {cr3 : Word} (first : ∀ i, present (mem cr3 i) = true → user (mem cr3 i) = true)
    (second : ∀ i t, tableAt mem cr3 [i] = some t → ∀ j, present (mem t j) = true → user (mem t j) = true)
    (third : ∀ i j k, tableAt mem cr3 [i, j, k] = none) (virt : Word) : (above mem cr3 virt).ring3 = true := by
  have limits : ∀ {e : Word}, (present e = true → user e = true) → (limit (some e)).ring3 = true := fun {e} isUser => by
    rw [limit]
    split_ifs with both
    · rw [Bool.and_eq_true] at both
      exact isUser both.1
    · rfl
  have missing : ∀ {i : Index} {place : List Index},
      tableAt mem cr3 place = none → entryAt mem cr3 (i :: place) = none :=
    fun none => by rw [entryAt, entry, ← tableAt, none]; rfl
  have above4 : (limit (entryAt mem cr3 [i4 virt])).ring3 = true := limits (first _)
  have above3 : (limit (entryAt mem cr3 [i3 virt, i4 virt])).ring3 = true := by
    cases found : tableAt mem cr3 [i4 virt] with
    | none =>
        rw [missing found]
        rfl
    | some t =>
        rw [show entryAt mem cr3 [i3 virt, i4 virt] = some (mem t (i3 virt)) from entry_cons _ found]
        exact limits (second _ t found _)
  have above2 : (limit (entryAt mem cr3 [i2 virt, i3 virt, i4 virt])).ring3 = true := by
    cases found : tableAt mem cr3 [i3 virt, i4 virt] with
    | none =>
        rw [missing found]
        rfl
    | some t =>
        rw [show entryAt mem cr3 [i2 virt, i3 virt, i4 virt] = some (mem t (i2 virt)) from entry_cons _ found]
        have noTable := third (i2 virt) (i3 virt) (i4 virt)
        rw [tableAt, table_cons _ found] at noTable
        rw [limit_of_child (by decide : 2 < 3) noTable]
        rfl
  rw [above, Perms.and, Perms.and]
  simp [above4, above3, above2]

/-- The flags of a copied entry let ring 3 through. -/
theorem user_copyKernel (p e : Word) : user (p ||| kernelFlags e) = true := by
  simp [user, kernelFlags, pteUser]

theorem ring3_empty {mem : Pages} {cr3 : Word} (empty : ∀ i, present (mem cr3 i) = false) (virt : Word) :
    (above mem cr3 virt).ring3 = true := by
  have short : ∀ {place : List Index}, place ≠ [] → tableAt mem cr3 place = none := fun {place} deep => by
    cases found : tableAt mem cr3 place with
    | none => rfl
    | some t => exact absurd (tableAt_empty empty found).1 deep
  refine ring3_of_tables (fun i isPresent => ?_) (fun i t found => ?_) (fun i j k => short (List.cons_ne_nil _ _)) virt
  · rw [empty i] at isPresent
    cases isPresent
  · rw [short (List.cons_ne_nil _ _)] at found
    cases found

/-- A new space forbids ring 3 nowhere when the kernel has no tables of 4 KB pages. -/
theorem vmmMapKernel_ring3 {vm : Vm} {kernel_cr3 : Word} (shape : Shape vm.mem kernel_cr3)
    (kernel : ∀ p, IsTable vm.mem kernel_cr3 p → p ∉ vm.supply)
    (nodup : vm.supply.Nodup) (aligned : ∀ p ∈ vm.supply, frame p = p)
    (noTables : ∀ i2 i3, tableAt vm.mem kernel_cr3 [i2, i3, 0] = none) {cr3 : Word} {vm₁ : Vm}
    (isNew : vmmCreateSpace vm = some (cr3, vm₁)) (virt : Word) :
    (above (vmmMapKernel vm₁ kernel_cr3 cr3).mem cr3 virt).ring3 = true := by
  rcases vmmMapKernel_cases shape kernel nodup aligned isNew with
    ⟨same, -, empty, -⟩ | ⟨pdpt, rest, vm₃, copy, supply, isPresent, copied, -, result⟩
  · rw [same]
    exact ring3_empty empty virt
  · obtain ⟨built, -⟩ := built_copy shape kernel nodup aligned supply isPresent copied
    have pdptNew : pdpt ∈ vm.supply := supply ▸ List.mem_cons_of_mem cr3 List.mem_cons_self
    have isRoot := copy_root nodup supply copied
    have isPdpt := copy_pdpt shape kernel nodup supply isPresent copied
    rw [result]
    generalize Vm.setEntry _ cr3 0 (pdpt ||| kernelFlags (vm.mem kernel_cr3 0)) = vm' at built isRoot isPdpt ⊢
    -- the only table of the second level is the copy
    have isFirst : ∀ i t, tableAt vm'.mem cr3 [i] = some t → i = 0 ∧ t = pdpt := fun i t found => by
      have isChild : child 0 (vm'.mem cr3 i) = some t := found
      rw [isRoot] at isChild
      split_ifs at isChild with zero
      · have notHuge := shape.small [] kernel_cr3 0 (by decide) rfl isPresent
        rw [child_copyKernel (aligned pdpt pdptNew) (by decide) isPresent notHuge] at isChild
        exact ⟨zero, (Option.some.inj isChild).symm⟩
      · rw [child_absent (by decide)] at isChild
        cases isChild
    refine ring3_of_tables (fun i isPresent => ?_) (fun i t found j isPresent => ?_) (fun i j k => ?_) virt
    · rw [isRoot] at isPresent ⊢
      split_ifs at isPresent ⊢
      · exact user_copyKernel _ _
      · cases isPresent
    · obtain ⟨-, rfl⟩ := isFirst i t found
      rw [isPdpt] at isPresent ⊢
      cases isCopy : copy j with
      | none =>
        have absent : present 0#64 = false := by decide
        rw [isCopy] at isPresent
        exact absurd isPresent (Bool.eq_false_iff.mp absent)
      | some q => exact user_copyKernel _ _
    · cases found : tableAt vm'.mem cr3 [i, j, k] with
      | none => rfl
      | some t =>
        obtain ⟨pd, found3, -⟩ := table_parent found
        obtain ⟨pdpt', found4, -⟩ := table_parent found3
        obtain ⟨rfl, -⟩ := isFirst k pdpt' found4
        rw [built.shared i j pd found3, noTables] at found
        cases found

end Systrix.Vmm
