import Systrix.Heap.SlabInvariant

/-!
# Allocation from the slab tier

`slab_alloc` either takes a slot of a page it has or adds the page `pmm_alloc`
gave it.  The page walk finishes because a chain cannot be longer than physical
memory has pages.
-/

namespace Systrix.Heap

open ByteMemory Machine LinkedList

/-! ## A fresh page -/

theorem threadSlots_field (memory : Memory) (p n : Nat) {c offset : Nat}
    (isClass : c < slabNumClasses) (fits : offset + 4 ≤ 32) :
    load (threadSlots memory p (slabSize c) n (slotCount (slabSize c))) (p + offset) 4 =
      load memory (p + offset) 4 := by
  have size : slabHdrSz = 32 := rfl
  exact load_congr ((threadSlots_sameOutside memory p n isClass (Nat.le_refl _)).sameOn
    (by omega))

/-- The page `slab_page_init` prepares, linked in front of the page `link`. -/
def freshSlab (memory : Memory) (p c link : Nat) : Memory :=
  setNextSlab (slabPageInit memory p c) p link

theorem freshSlab_sameOutside (memory : Memory) (p link : Nat) {c : Nat}
    (isClass : c < slabNumClasses) :
    SameOutside (freshSlab memory p c link) memory p (p + pageSize) := by
  have sizes : pageSize = 4096 ∧ slabHdrSz = 32 := ⟨rfl, rfl⟩
  have header : ∀ memory' offset value, offset + 4 ≤ slabHdrSz →
      SameOutside (store memory' (p + offset) 4 value) memory' p (p + pageSize) :=
    fun memory' offset value fits =>
      (header_store_sameOutside memory' p offset value fits).mono (Nat.le_refl _) (by omega)
  refine (header _ 20 link (by decide)).trans ?_
  refine (header _ 0 0 (by decide)).trans ?_
  refine ((threadSlots_sameOutside _ p _ isClass (Nat.le_refl _)).mono
    (by omega) (Nat.le_refl _)).trans ?_
  refine (header _ 20 0 (by decide)).trans ?_
  refine (header _ 4 _ (by decide)).trans ?_
  refine (header _ 8 _ (by decide)).trans ?_
  refine (header _ 16 _ (by decide)).trans ?_
  refine (header _ 12 _ (by decide)).trans ?_
  exact fill_sameOutside memory p pageSize 0

theorem freshSlab_nextSlab (memory : Memory) (p c : Nat) {link : Nat} (fits : link < 2 ^ 32) :
    nextSlab (freshSlab memory p c link) p = link :=
  load_store_of_lt _ _ (by omega)

theorem freshSlab_page (memory : Memory) (p link : Nat) {c : Nat} (isClass : c < slabNumClasses) :
    SlabPage (freshSlab memory p c link) p c (List.range (slotCount (slabSize c))) := by
  have size := slabSize_bounds isClass
  have few := slotCount_bounds isClass
  have classes : slabNumClasses = 8 := rfl
  have thread : ∀ {memory' offset}, offset + 4 ≤ 32 →
      load (threadSlots memory' p (slabSize c) (slotCount (slabSize c)) (slotCount (slabSize c)))
        (p + offset) 4 = load memory' (p + offset) 4 := fun fits =>
    threadSlots_field _ p _ isClass fits
  refine ⟨?_, ?_, ?_, ?_, fun idx => List.mem_range.mp, List.nodup_range⟩
  · unfold freshSlab setNextSlab objSize slabPageInit setFreeHead
    rw [load_store_of_apart _ _ (by omega), load_store_of_apart _ _ (by omega),
      thread (by omega)]
    unfold setNextSlab setFreeCount setTotal setClassIdx setObjSize
    iterate 4 rw [load_store_of_apart _ _ (by omega)]
    exact load_store_of_lt _ _ (by omega)
  · unfold freshSlab setNextSlab classIdx slabPageInit setFreeHead
    rw [load_store_of_apart _ _ (by omega), load_store_of_apart _ _ (by omega),
      thread (by omega)]
    unfold setNextSlab setFreeCount setTotal setClassIdx
    iterate 3 rw [load_store_of_apart _ _ (by omega)]
    exact load_store_of_lt _ _ (by omega)
  · unfold freshSlab setNextSlab freeCount slabPageInit setFreeHead
    rw [load_store_of_apart _ _ (by omega), load_store_of_apart _ _ (by omega),
      thread (by omega)]
    unfold setNextSlab setFreeCount
    rw [load_store_of_apart _ _ (by omega), load_store_of_lt _ _ (by omega), List.length_range]
  · have head : freeHead (freshSlab memory p c link) p = 0 := by
      unfold freshSlab setNextSlab freeHead slabPageInit setFreeHead
      rw [load_store_of_apart _ _ (by omega)]
      exact load_store_of_lt _ _ (by decide)
    rw [head, List.range_eq_range']
    have nilAbove : slotCount (slabSize c) ≤ slabNil := Nat.le_of_lt (Nat.lt_trans few.2 (by decide))
    refine Chain.consecutive few.1 nilAbove fun j inside => ?_
    have bounds := slotPtr_bounds p inside
    have header : slabHdrSz = 32 := rfl
    unfold slotNext freshSlab setNextSlab slabPageInit setFreeHead
    rw [load_store_of_apart _ _ (by omega), load_store_of_apart _ _ (by omega)]
    exact slotNext_threadSlots _ p _ isClass (Nat.le_refl _) inside (by omega)

/-- Adding a fresh page in front of a class chain. -/
theorem SlabInv.add_page {heap : KernelHeap} {pages free : Nat → List Nat} {c page : Nat}
    (inv : SlabInv heap pages free) (isClass : c < slabNumClasses) (physical : PhysicalPage page)
    (fresh : ∀ d < slabNumClasses, page ∉ pages d) (link : heap.slabCache c < 2 ^ 32) :
    SlabInv ⟨freshSlab heap.memory page c (heap.slabCache c),
        Function.update heap.slabCache c page⟩
      (Function.update pages c (page :: pages c))
      (Function.update free page (List.range (slotCount (slabSize c)))) := by
  have sizes : pageSize = 4096 ∧ slabHdrSz = 32 := ⟨rfl, rfl⟩
  have same := freshSlab_sameOutside heap.memory page (heap.slabCache c) isClass
  have apart : ∀ d < slabNumClasses, ∀ q ∈ pages d, q + pageSize ≤ page ∨ page + pageSize ≤ q :=
    fun d isClass' q member => (inv.physical d isClass' q member).apart physical
      fun equal => fresh d isClass' (equal ▸ member)
  have chains : ∀ d < slabNumClasses,
      Chain (nextSlab (freshSlab heap.memory page c (heap.slabCache c))) 0 (heap.slabCache d)
        (pages d) := by
    intro d isClass'
    refine (inv.chains d isClass').congr fun q member => ?_
    have far := apart d isClass' q member
    exact load_congr (same.sameOn (by omega))
  have old : ∀ d < slabNumClasses, ∀ q ∈ pages d,
      SlabPage (freshSlab heap.memory page c (heap.slabCache c)) q d
        (Function.update free page (List.range (slotCount (slabSize c))) q) := by
    intro d isClass' q member
    have far := apart d isClass' q member
    have different : q ≠ page := fun equal => fresh d isClass' (equal ▸ member)
    rw [Function.update_of_ne different]
    refine (inv.page d isClass' q member).congr (same.sameOn (by omega)) fun idx isFree => ?_
    have bounds := slotPtr_bounds q ((inv.page d isClass' q member).bounded idx isFree)
    have large := (slabSize_bounds isClass').1
    exact same.sameOn (by omega)
  refine ⟨fun d isClass' => ?_, fun d isClass' q member => ?_, fun d isClass' q member => ?_,
    fun d isClass' => ?_⟩
  · by_cases here : d = c
    · subst here
      simp only [Function.update_self]
      refine ⟨rfl, physical.ne_zero, ?_⟩
      rw [freshSlab_nextSlab _ _ _ link]
      exact chains d isClass'
    · simp only [Function.update_of_ne here]
      exact chains d isClass'
  · by_cases here : d = c
    · subst here
      rw [Function.update_self, List.mem_cons] at member
      rcases member with rfl | member
      · rw [Function.update_self]
        exact freshSlab_page _ _ _ isClass
      · exact old d isClass' q member
    · rw [Function.update_of_ne here] at member
      exact old d isClass' q member
  · by_cases here : d = c
    · subst here
      rw [Function.update_self, List.mem_cons] at member
      rcases member with rfl | member
      · exact physical
      · exact inv.physical d isClass' q member
    · rw [Function.update_of_ne here] at member
      exact inv.physical d isClass' q member
  · by_cases here : d = c
    · subst here
      rw [Function.update_self]
      exact List.nodup_cons.mpr ⟨fresh d isClass', inv.nodup d isClass'⟩
    · rw [Function.update_of_ne here]
      exact inv.nodup d isClass'

/-! ## The page walk -/

/-- Chains fit the walk: their pages are distinct pages of physical memory. -/
theorem SlabInv.length_lt {heap : KernelHeap} {pages free : Nat → List Nat} {c : Nat}
    (inv : SlabInv heap pages free) (isClass : c < slabNumClasses) : (pages c).length < slabFuel :=
  Nat.lt_succ_of_le (PhysicalPage.length_le (inv.physical c isClass) (inv.nodup c isClass))

theorem findSlab_spec {memory : Memory} {free : Nat → List Nat} {head fuel : Nat}
    {members : List Nat} (chain : Chain (nextSlab memory) 0 head members)
    (counts : ∀ p ∈ members, freeCount memory p = (free p).length)
    (enough : members.length < fuel) :
    (findSlab memory fuel head = some 0 ∧ ∀ p ∈ members, free p = []) ∨
      ∃ p ∈ members, findSlab memory fuel head = some p ∧ free p ≠ [] := by
  induction fuel generalizing head members with
  | zero => omega
  | succ fuel ih =>
      cases members with
      | nil =>
          have isNil : head = 0 := chain
          exact .inl ⟨by simp [findSlab, isNil], by simp⟩
      | cons p members =>
          obtain ⟨rfl, nonNil, tail⟩ := chain
          have count := counts head (by simp)
          rw [findSlab, if_neg nonNil]
          split
          next available =>
            refine .inr ⟨head, by simp, rfl, ?_⟩
            intro empty
            simp [count, empty] at available
          next full =>
            have empty : free head = [] := List.eq_nil_of_length_eq_zero (by omega)
            rcases ih tail (fun q member => counts q (by simp [member])) (by simpa using enough)
              with ⟨found, rest⟩ | ⟨q, member, found, available⟩
            · exact .inl ⟨found, List.forall_mem_cons.mpr ⟨empty, rest⟩⟩
            · exact .inr ⟨q, by simp [member], found, available⟩

/-! ## `slab_alloc` -/

/-- Slot `j` of page `p` in class `c` is handed out. -/
def UsedSlot (pages free : Nat → List Nat) (c p j : Nat) : Prop :=
  c < slabNumClasses ∧ p ∈ pages c ∧ j < slotCount (slabSize c) ∧ j ∉ free p

/-- Neither the block arena nor any slot in use changed. -/
structure SlotsKept (memory' memory : Memory) (pages free : Nat → List Nat) : Prop where
  arena : SameOn memory' memory heapBase heapLimit
  slot : ∀ {c p j}, UsedSlot pages free c p j →
    SameOn memory' memory (slotPtr p (slabSize c) j) (slotPtr p (slabSize c) j + slabSize c)

/-- Changes inside one page that spare its used slots keep all used slots. -/
theorem SlotsKept.of_page {heap : KernelHeap} {memory' : Memory} {pages free : Nat → List Nat}
    {page : Nat} (inv : SlabInv heap pages free) (physical : PhysicalPage page)
    (same : SameOutside memory' heap.memory page (page + pageSize))
    (here : ∀ {c j}, UsedSlot pages free c page j →
      SameOn memory' heap.memory (slotPtr page (slabSize c) j)
        (slotPtr page (slabSize c) j + slabSize c)) :
    SlotsKept memory' heap.memory pages free where
  arena := same.sameOn (.inl physical.above_arena)
  slot := by
    intro c p j used
    by_cases equal : p = page
    · subst equal
      exact here used
    · have far := (inv.physical c used.1 p used.2.1).apart physical equal
      have bounds := slotPtr_bounds p used.2.2.1
      exact same.sameOn (by omega)

/-- A class has to ask for a new page: none of its pages has a free slot. -/
def NeedsPage (pages free : Nat → List Nat) (c : Nat) : Prop := ∀ p ∈ pages c, free p = []

/-- Result of a successful `slab_alloc`: one more slot is in use. -/
structure SlotTaken (heap heap' : KernelHeap) (pages free pages' free' : Nat → List Nat)
    (c slot : Nat) : Prop where
  inv : SlabInv heap' pages' free'
  kept : SlotsKept heap'.memory heap.memory pages free
  taken : ∃ p j, slot = slotPtr p (slabSize c) j ∧ UsedSlot pages' free' c p j ∧
    ¬UsedSlot pages free c p j ∧
    ∀ d q i, UsedSlot pages' free' d q i ↔ UsedSlot pages free d q i ∨ (d = c ∧ q = p ∧ i = j)

/-- Taking the first free slot of one page changes the set of used slots by one. -/
theorem usedSlot_take {heap : KernelHeap} {pages free : Nat → List Nat} {c p j : Nat}
    {rest : List Nat} (inv : SlabInv heap pages free) (isClass : c < slabNumClasses)
    (member : p ∈ pages c) (available : free p = j :: rest) :
    UsedSlot pages (Function.update free p rest) c p j ∧ ¬UsedSlot pages free c p j ∧
      ∀ d q i, UsedSlot pages (Function.update free p rest) d q i ↔
        UsedSlot pages free d q i ∨ (d = c ∧ q = p ∧ i = j) := by
  have isPage := inv.page c isClass p member
  rw [available] at isPage
  have inside : j < slotCount (slabSize c) := isPage.bounded j (by simp)
  have fresh : j ∉ rest := (List.nodup_cons.mp isPage.nodup).1
  refine ⟨⟨isClass, member, inside, by simpa using fresh⟩, ?_, ?_⟩
  · intro used
    exact used.2.2.2 (by simp [available])
  · intro d q i
    unfold UsedSlot
    by_cases here : q = p
    · subst here
      simp only [Function.update_self, available, List.mem_cons, not_or]
      constructor
      · rintro ⟨isClass', member', insideI, notRest⟩
        by_cases first : i = j
        · exact .inr ⟨(inv.class_unique isClass isClass' member member').symm, trivial, first⟩
        · exact .inl ⟨isClass', member', insideI, first, notRest⟩
      · rintro (⟨isClass', member', insideI, -, notRest⟩ | ⟨rfl, -, rfl⟩)
        · exact ⟨isClass', member', insideI, notRest⟩
        · exact ⟨isClass, member, inside, fresh⟩
    · simp [here]

/-- Pages of a class and its head after an allocation: a page is added only when none has a
free slot. -/
def PagesGrown (heap heap' : KernelHeap) (pages pages' free : Nat → List Nat) (c page : Nat) : Prop :=
  (pages' = pages ∧ heap'.slabCache = heap.slabCache) ∨
    (page ≠ 0 ∧ NeedsPage pages free c ∧ pages' = Function.update pages c (page :: pages c) ∧
      heap'.slabCache = Function.update heap.slabCache c page)

theorem slabAlloc_grown {heap : KernelHeap} {pages free : Nat → List Nat} {c page : Nat}
    (inv : SlabInv heap pages free) (isClass : c < slabNumClasses)
    (supply : page ≠ 0 → PhysicalPage page ∧ ∀ d < slabNumClasses, page ∉ pages d)
    (link : page ≠ 0 → NeedsPage pages free c → heap.slabCache c < 2 ^ 32) :
    slabAlloc heap page c = some (heap, 0) ∨
      ∃ heap' pages' free' slot, slabAlloc heap page c = some (heap', slot) ∧ slot ≠ 0 ∧
        SlotTaken heap heap' pages free pages' free' c slot ∧ PagesGrown heap heap' pages pages' free c page := by
  have nonzero : ∀ p idx, slotPtr p (slabSize c) idx ≠ 0 := by
    intro p idx
    unfold slotPtr slabHdrSz
    omega
  rcases findSlab_spec (inv.chains c isClass)
    (fun p member => (inv.page c isClass p member).freeCount_eq) (inv.length_lt isClass)
    with ⟨found, full⟩ | ⟨p, member, found, available⟩
  · by_cases noPage : page = 0
    · left
      simp [slabAlloc, found, noPage]
    · right
      obtain ⟨physical, fresh⟩ := supply noPage
      have small := link noPage full
      have inv₁ := inv.add_page isClass physical fresh small
      obtain ⟨rest, restEq⟩ : ∃ rest, List.range (slotCount (slabSize c)) = 0 :: rest := by
        obtain ⟨n, count⟩ : ∃ n, slotCount (slabSize c) = n + 1 :=
          ⟨slotCount (slabSize c) - 1, by have := (slotCount_bounds isClass).1; omega⟩
        rw [count, List.range_succ_eq_map]
        exact ⟨_, rfl⟩
      rw [restEq] at inv₁
      have member₁ : page ∈ Function.update pages c (page :: pages c) c := by simp
      have available₁ : Function.update free page (0 :: rest) page = 0 :: rest :=
        Function.update_self ..
      obtain ⟨memory', run, inv₂, same, -⟩ := takeSlot_spec inv₁ isClass member₁ available₁
      obtain ⟨used, -, exactly⟩ := usedSlot_take inv₁ isClass member₁ available₁
      have unused : ∀ d q i, UsedSlot (Function.update pages c (page :: pages c))
          (Function.update free page (0 :: rest)) d q i ↔ UsedSlot pages free d q i := by
        intro d q i
        unfold UsedSlot
        by_cases here : q = page
        · subst here
          rw [Function.update_self, ← restEq]
          constructor
          · rintro ⟨isClass', member', inside, notFree⟩
            -- all slots of the new page are free
            have sameClass : d = c := inv₁.class_unique isClass' isClass member' member₁
            subst sameClass
            exact absurd (List.mem_range.mpr inside) notFree
          · rintro ⟨isClass', member', -⟩
            exact absurd member' (fresh d isClass')
        · rw [Function.update_of_ne here]
          by_cases sameClass : d = c
          · subst sameClass
            simp [here]
          · rw [Function.update_of_ne sameClass]
      refine ⟨_, _, _, _, ?_, nonzero page 0, ⟨inv₂, ?_, page, 0, rfl, used, ?_, ?_⟩,
        .inr ⟨noPage, full, rfl, rfl⟩⟩
      · simp only [slabAlloc, found, noPage, if_false, u32_of_lt small]
        unfold freshSlab at run
        rw [run]
      · refine SlotsKept.of_page inv physical (same.trans ?_) ?_
        · exact freshSlab_sameOutside _ _ _ isClass
        · intro d i usedOld
          exact absurd usedOld.2.1 (fresh d usedOld.1)
      · intro usedOld
        exact fresh c isClass usedOld.2.1
      · intro d q i
        rw [exactly, unused]
  · right
    obtain ⟨j, rest, shape⟩ : ∃ j rest, free p = j :: rest := by
      cases list : free p with
      | nil => exact absurd list available
      | cons j rest => exact ⟨j, rest, rfl⟩
    obtain ⟨memory', run, inv₁, same, others⟩ := takeSlot_spec inv isClass member shape
    obtain ⟨used, unusedBefore, exactly⟩ := usedSlot_take inv isClass member shape
    have physical := inv.physical c isClass p member
    refine ⟨_, _, _, _, ?_, nonzero p j, ⟨inv₁, ?_, p, j, rfl, used, unusedBefore, exactly⟩, .inl ⟨rfl, rfl⟩⟩
    · simp only [slabAlloc, found]
      split
      next impossible => cases impossible
      next isZero => exact absurd (Option.some.inj isZero) physical.ne_zero
      next phys isSome =>
        cases isSome
        rw [run]
    · refine SlotsKept.of_page inv physical same ?_
      intro d i usedOld
      have sameClass := inv.class_unique usedOld.1 isClass usedOld.2.1 member
      subst sameClass
      refine others i usedOld.2.2.1 fun equal => ?_
      subst equal
      exact usedOld.2.2.2 (by simp [shape])

theorem slabAlloc_spec {heap : KernelHeap} {pages free : Nat → List Nat} {c page : Nat}
    (inv : SlabInv heap pages free) (isClass : c < slabNumClasses)
    (supply : page ≠ 0 → PhysicalPage page ∧ ∀ d < slabNumClasses, page ∉ pages d)
    (link : NeedsPage pages free c → heap.slabCache c < 2 ^ 32) :
    slabAlloc heap page c = some (heap, 0) ∨
      ∃ heap' pages' free' slot, slabAlloc heap page c = some (heap', slot) ∧ slot ≠ 0 ∧
        SlotTaken heap heap' pages free pages' free' c slot := by
  rcases slabAlloc_grown inv isClass supply (fun _ => link) with
    none | ⟨heap', pages', free', slot, run, nonzero, taken, -⟩
  · exact .inl none
  · exact .inr ⟨heap', pages', free', slot, run, nonzero, taken⟩

/-- Giving a slot back changes the set of used slots by one. -/
theorem usedSlot_release {heap : KernelHeap} {pages free : Nat → List Nat} {c p j : Nat}
    (inv : SlabInv heap pages free) (isClass : c < slabNumClasses) (member : p ∈ pages c) (d q i : Nat) :
    UsedSlot pages (Function.update free p (j :: free p)) d q i ↔
      UsedSlot pages free d q i ∧ ¬(d = c ∧ q = p ∧ i = j) := by
  unfold UsedSlot
  by_cases here : q = p
  · subst here
    rw [Function.update_self, List.mem_cons, not_or]
    constructor
    · rintro ⟨isClass', member', inside', different, notFree'⟩
      exact ⟨⟨isClass', member', inside', notFree'⟩, fun same => different same.2.2⟩
    · rintro ⟨⟨isClass', member', inside', notFree'⟩, different⟩
      have sameClass := inv.class_unique isClass' isClass member' member
      exact ⟨isClass', member', inside', fun same => different ⟨sameClass, rfl, same⟩, notFree'⟩
  · simp [here]

/-! ## Addresses of slots in use -/

namespace SlabInv

variable {heap : KernelHeap} {pages free : Nat → List Nat} {c p j d q i : Nat}

theorem slot_page (inv : SlabInv heap pages free) (used : UsedSlot pages free c p j) :
    pageBase (slotPtr p (slabSize c) j) = p := by
  have physical := inv.physical c used.1 p used.2.1
  exact pageBase_slotPtr physical.aligned used.2.2.1
    (Nat.lt_of_lt_of_le (by decide) (slabSize_bounds used.1).1)

/-- The page header records the size of the slot. -/
theorem slot_size (inv : SlabInv heap pages free) (used : UsedSlot pages free c p j) :
    objSize heap.memory (pageBase (slotPtr p (slabSize c) j)) = slabSize c := by
  rw [inv.slot_page used]
  exact (inv.page c used.1 p used.2.1).objSize_eq

/-- `ptr_in_slab` is right about pointers into slab pages. -/
theorem ptrInSlab_slot (inv : SlabInv heap pages free) (used : UsedSlot pages free c p j) :
    ptrInSlab heap.memory (slotPtr p (slabSize c) j) = some c := by
  have isPage := inv.page c used.1 p used.2.1
  unfold ptrInSlab
  rw [inv.slot_page used, isPage.objSize_eq, isPage.classIdx_eq]
  cases found : (List.range slabSizes.length).find? fun d =>
      decide (slabSize c = slabSize d ∧ c = d) with
  | none =>
      have absent := List.find?_eq_none.mp found c (List.mem_range.mpr used.1)
      simp at absent
  | some d =>
      have same := List.find?_some found
      simp only [decide_eq_true_eq] at same
      rw [same.2]

/-- Slots lie above the block arena. -/
theorem slot_above (inv : SlabInv heap pages free) (used : UsedSlot pages free c p j) :
    heapLimit ≤ slotPtr p (slabSize c) j := by
  have above := (inv.physical c used.1 p used.2.1).above_arena
  have bounds := slotPtr_bounds p used.2.2.1
  omega

/-- Slots in use do not meet. -/
theorem slots_apart (inv : SlabInv heap pages free) (left : UsedSlot pages free c p j)
    (right : UsedSlot pages free d q i)
    (different : slotPtr p (slabSize c) j ≠ slotPtr q (slabSize d) i) :
    slotPtr p (slabSize c) j + slabSize c ≤ slotPtr q (slabSize d) i ∨
      slotPtr q (slabSize d) i + slabSize d ≤ slotPtr p (slabSize c) j := by
  by_cases samePage : p = q
  · subst samePage
    have sameClass := inv.class_unique left.1 right.1 left.2.1 right.2.1
    subst sameClass
    exact slotPtr_apart p (slabSize c) fun equal => different (by rw [equal])
  · have apart := (inv.physical c left.1 p left.2.1).apart
      (inv.physical d right.1 q right.2.1) samePage
    have leftBounds := slotPtr_bounds p left.2.2.1
    have rightBounds := slotPtr_bounds q right.2.2.1
    omega

/-- A slot in use is determined by its address. -/
theorem slot_unique (inv : SlabInv heap pages free) (left : UsedSlot pages free c p j)
    (right : UsedSlot pages free d q i)
    (same : slotPtr p (slabSize c) j = slotPtr q (slabSize d) i) : c = d ∧ p = q ∧ j = i := by
  have samePage : p = q := by rw [← inv.slot_page left, same, inv.slot_page right]
  subst samePage
  have sameClass := inv.class_unique left.1 right.1 left.2.1 right.2.1
  subst sameClass
  refine ⟨rfl, rfl, ?_⟩
  by_contra different
  have apart := slotPtr_apart p (slabSize c) different
  have positive := (slabSize_bounds left.1).1
  omega

end SlabInv

end Systrix.Heap
