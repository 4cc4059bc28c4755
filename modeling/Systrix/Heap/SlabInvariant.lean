import Systrix.Heap.SlabTier
import Systrix.Lib.LinkedList
import Mathlib.Data.List.Perm.Subperm

/-!
# Invariant of the slab tier

Every size class owns a chain of pages, every page a list of free slots.  The
invariant says that the headers and the links in memory describe these lists;
each operation is described by its effect on them.
-/

namespace Systrix.Heap

open ByteMemory Machine LinkedList

/-- Number of size classes, `SLAB_NUM_CLASSES`. -/
def slabNumClasses : Nat := 8

/-! ## Slot geometry -/

theorem slabSize_bounds :
    ∀ {c : Nat}, c < slabNumClasses → 16 ≤ slabSize c ∧ slabSize c ≤ 2048 := by
  decide

theorem slotCount_bounds :
    ∀ {c : Nat}, c < slabNumClasses →
      0 < slotCount (slabSize c) ∧ slotCount (slabSize c) < 256 := by
  decide

/-- A slot lies inside its page, after the header. -/
theorem slotPtr_bounds (page : Nat) {size idx : Nat} (inside : idx < slotCount size) :
    page + slabHdrSz ≤ slotPtr page size idx ∧ slotPtr page size idx + size ≤ page + pageSize := by
  have step : (idx + 1) * size ≤ slotCount size * size := Nat.mul_le_mul_right size inside
  have all : slotCount size * size ≤ pageSize - slabHdrSz := Nat.div_mul_le_self _ _
  have sizes : pageSize = 4096 ∧ slabHdrSz = 32 := ⟨rfl, rfl⟩
  rw [Nat.succ_mul] at step
  unfold slotPtr
  omega

/-- Distinct slots of a page do not meet. -/
theorem slotPtr_apart (page size : Nat) {i j : Nat} (different : i ≠ j) :
    slotPtr page size i + size ≤ slotPtr page size j ∨
      slotPtr page size j + size ≤ slotPtr page size i := by
  unfold slotPtr
  rcases Nat.lt_or_gt_of_ne different with less | less
  · have step : (i + 1) * size ≤ j * size := Nat.mul_le_mul_right size less
    rw [Nat.succ_mul] at step
    omega
  · have step : (j + 1) * size ≤ i * size := Nat.mul_le_mul_right size less
    rw [Nat.succ_mul] at step
    omega

theorem pageBase_eq {page ptr : Nat} (aligned : page % pageSize = 0) (low : page ≤ ptr)
    (high : ptr < page + pageSize) : pageBase ptr = page := by
  unfold pageBase alignDown
  simp only [pageSize] at *
  omega

theorem pageBase_slotPtr {page size idx : Nat} (aligned : page % pageSize = 0)
    (inside : idx < slotCount size) (positive : 0 < size) :
    pageBase (slotPtr page size idx) = page := by
  have bounds := slotPtr_bounds page inside
  exact pageBase_eq aligned (by omega) (by omega)

/-! ## The invariant -/

/-- Link stored in slot `idx` of a page. -/
def slotNext (memory : Memory) (page size idx : Nat) : Nat := load memory (slotPtr page size idx) 4

/-- A page of class `c` whose free list is `freeSlots`. -/
structure SlabPage (memory : Memory) (page c : Nat) (freeSlots : List Nat) : Prop where
  objSize_eq : objSize memory page = slabSize c
  classIdx_eq : classIdx memory page = c
  freeCount_eq : freeCount memory page = freeSlots.length
  chain : Chain (slotNext memory page (slabSize c)) slabNil (freeHead memory page) freeSlots
  bounded : ∀ idx ∈ freeSlots, idx < slotCount (slabSize c)
  nodup : freeSlots.Nodup

/-- A page `pmm_alloc` may hand out: page aligned physical memory above the
block arena. -/
structure PhysicalPage (page : Nat) : Prop where
  aligned : page % pageSize = 0
  low : ramStart ≤ page
  high : page + pageSize ≤ ramEndMax

namespace PhysicalPage

variable {page page' : Nat}

theorem ne_zero (isPage : PhysicalPage page) : page ≠ 0 := by
  have low := isPage.low
  have start : ramStart = 0x400000 := rfl
  omega

theorem above_arena (isPage : PhysicalPage page) : heapLimit ≤ page :=
  isPage.low

theorem apart (isPage : PhysicalPage page) (isPage' : PhysicalPage page')
    (different : page ≠ page') : page + pageSize ≤ page' ∨ page' + pageSize ≤ page := by
  have aligned := isPage.aligned
  have aligned' := isPage'.aligned
  simp only [pageSize] at *
  omega

/-- There are not more different pages than physical memory has. -/
theorem length_le {pages : List Nat} (physical : ∀ p ∈ pages, PhysicalPage p) (nodup : pages.Nodup) :
    pages.length ≤ ramEndMax / pageSize := by
  have numbered : (pages.map (· / pageSize)).Nodup := by
    refine (List.nodup_map_iff_inj_on nodup).mpr ?_
    intro p member q member' equal
    have aligned := (physical p member).aligned
    have aligned' := (physical q member').aligned
    simp only [pageSize] at *
    omega
  have bounded : pages.map (· / pageSize) ⊆ List.range (ramEndMax / pageSize) := by
    intro index member
    obtain ⟨p, isPage, rfl⟩ := List.mem_map.mp member
    have high := (physical p isPage).high
    simp only [List.mem_range, pageSize, ramEndMax] at *
    omega
  have count := (List.subperm_of_subset numbered bounded).length_le
  rwa [List.length_map, List.length_range] at count

end PhysicalPage

/-- Memory and class heads describe page chains and free lists. -/
structure SlabInv (heap : KernelHeap) (pages free : Nat → List Nat) : Prop where
  chains : ∀ c < slabNumClasses, Chain (nextSlab heap.memory) 0 (heap.slabCache c) (pages c)
  page : ∀ c < slabNumClasses, ∀ p ∈ pages c, SlabPage heap.memory p c (free p)
  physical : ∀ c < slabNumClasses, ∀ p ∈ pages c, PhysicalPage p
  nodup : ∀ c < slabNumClasses, (pages c).Nodup

namespace SlabPage

variable {memory memory' : Memory} {p c : Nat} {freeSlots : List Nat}

/-- Only the header and the links of free slots matter. -/
theorem congr (isPage : SlabPage memory p c freeSlots)
    (header : SameOn memory' memory p (p + slabHdrSz))
    (links : ∀ idx ∈ freeSlots, SameOn memory' memory (slotPtr p (slabSize c) idx)
      (slotPtr p (slabSize c) idx + 4)) : SlabPage memory' p c freeSlots := by
  have size : slabHdrSz = 32 := rfl
  have field : ∀ offset, offset + 4 ≤ 32 →
      load memory' (p + offset) 4 = load memory (p + offset) 4 := fun offset fits =>
    load_congr fun address lower upper => header address (by omega) (by omega)
  exact {
    objSize_eq := (field 12 (by omega)).trans isPage.objSize_eq
    classIdx_eq := (field 16 (by omega)).trans isPage.classIdx_eq
    freeCount_eq := (field 4 (by omega)).trans isPage.freeCount_eq
    chain := by
      have same : freeHead memory' p = freeHead memory p := field 0 (by omega)
      rw [same]
      exact isPage.chain.congr fun idx member => load_congr (links idx member)
    bounded := isPage.bounded
    nodup := isPage.nodup }

end SlabPage

namespace SlabInv

variable {heap : KernelHeap} {memory' : Memory} {pages free : Nat → List Nat} {c d p : Nat}

/-- A page belongs to the class its header names. -/
theorem class_unique (inv : SlabInv heap pages free) (isClass : c < slabNumClasses)
    (isClass' : d < slabNumClasses) (member : p ∈ pages c) (member' : p ∈ pages d) : c = d := by
  rw [← (inv.page c isClass p member).classIdx_eq, (inv.page d isClass' p member').classIdx_eq]

/-- Only headers and links of free slots matter. -/
theorem congr (inv : SlabInv heap pages free)
    (header : ∀ c < slabNumClasses, ∀ p ∈ pages c,
      SameOn memory' heap.memory p (p + slabHdrSz))
    (links : ∀ c < slabNumClasses, ∀ p ∈ pages c, ∀ idx ∈ free p,
      SameOn memory' heap.memory (slotPtr p (slabSize c) idx)
        (slotPtr p (slabSize c) idx + 4)) :
    SlabInv ⟨memory', heap.slabCache⟩ pages free where
  chains c isClass := by
    refine (inv.chains c isClass).congr fun p member => ?_
    refine load_congr fun address lower upper => header c isClass p member address (by omega) ?_
    have size : slabHdrSz = 32 := rfl
    omega
  page c isClass p member :=
    (inv.page c isClass p member).congr (header c isClass p member) (links c isClass p member)
  physical := inv.physical
  nodup := inv.nodup

/-- Changes inside the block arena are not seen. -/
theorem write_arena (inv : SlabInv heap pages free)
    (same : SameOutside memory' heap.memory heapBase heapLimit) :
    SlabInv ⟨memory', heap.slabCache⟩ pages free := by
  apply inv.congr
  · intro c isClass p member
    exact same.sameOn (.inr (inv.physical c isClass p member).above_arena)
  · intro c isClass p member idx isFree
    have bounds := slotPtr_bounds p ((inv.page c isClass p member).bounded idx isFree)
    have above := (inv.physical c isClass p member).above_arena
    exact same.sameOn (.inr (by omega))

/-- Changes inside one slot that is not free are not seen. -/
theorem write_slot (inv : SlabInv heap pages free) (isClass : c < slabNumClasses)
    (member : p ∈ pages c) {idx : Nat} (inside : idx < slotCount (slabSize c))
    (used : idx ∉ free p)
    (same : SameOutside memory' heap.memory (slotPtr p (slabSize c) idx)
      (slotPtr p (slabSize c) idx + slabSize c)) :
    SlabInv ⟨memory', heap.slabCache⟩ pages free := by
  have bounds := slotPtr_bounds p inside
  have apart : ∀ d < slabNumClasses, ∀ q ∈ pages d, q ≠ p →
      p + pageSize ≤ q ∨ q + pageSize ≤ p := fun d isClass' q member' different =>
    (inv.physical c isClass p member).apart (inv.physical d isClass' q member') (Ne.symm different)
  have sizes : pageSize = 4096 ∧ slabHdrSz = 32 := ⟨rfl, rfl⟩
  apply inv.congr
  · intro d isClass' q member'
    refine same.sameOn ?_
    by_cases different : q = p
    · subst different; omega
    · have far := apart d isClass' q member' different
      omega
  · intro d isClass' q member' other isFree
    refine same.sameOn ?_
    have otherInside := (inv.page d isClass' q member').bounded other isFree
    have otherBounds := slotPtr_bounds q otherInside
    have large := (slabSize_bounds isClass').1
    by_cases different : q = p
    · subst different
      have sameClass := inv.class_unique isClass isClass' member member'
      subst sameClass
      have distinct : idx ≠ other := fun equal => used (equal ▸ isFree)
      have far := slotPtr_apart q (slabSize c) distinct
      omega
    · have far := apart d isClass' q member' different
      omega

end SlabInv

/-! ## Field updates -/

/-- Updating one page: its chain link is kept and its new header describes
`freeSlots`. -/
theorem SlabInv.update_page {heap : KernelHeap} {memory' : Memory} {pages free : Nat → List Nat}
    {c p : Nat} {freeSlots : List Nat} (inv : SlabInv heap pages free)
    (isClass : c < slabNumClasses) (member : p ∈ pages c)
    (same : SameOutside memory' heap.memory p (p + pageSize))
    (link : nextSlab memory' p = nextSlab heap.memory p)
    (isPage : SlabPage memory' p c freeSlots) :
    SlabInv ⟨memory', heap.slabCache⟩ pages (Function.update free p freeSlots) := by
  have sizes : pageSize = 4096 ∧ slabHdrSz = 32 := ⟨rfl, rfl⟩
  have apart : ∀ d < slabNumClasses, ∀ q ∈ pages d, q ≠ p →
      q + pageSize ≤ p ∨ p + pageSize ≤ q := fun d isClass' q member' different =>
    (inv.physical d isClass' q member').apart (inv.physical c isClass p member) different
  refine ⟨fun d isClass' => ?_, fun d isClass' q member' => ?_, inv.physical, inv.nodup⟩
  · refine (inv.chains d isClass').congr fun q member' => ?_
    by_cases different : q = p
    · rw [different, link]
    · have far := apart d isClass' q member' different
      exact load_congr (same.sameOn (by omega))
  · by_cases different : q = p
    · subst different
      have sameClass := inv.class_unique isClass isClass' member member'
      subst sameClass
      rwa [Function.update_self]
    · have far := apart d isClass' q member' different
      rw [Function.update_of_ne different]
      refine (inv.page d isClass' q member').congr (same.sameOn (by omega)) fun idx isFree => ?_
      have bounds := slotPtr_bounds q ((inv.page d isClass' q member').bounded idx isFree)
      have large := (slabSize_bounds isClass').1
      exact same.sameOn (by omega)

theorem header_store_sameOutside (memory : Memory) (p offset value : Nat)
    (fits : offset + 4 ≤ slabHdrSz) :
    SameOutside (store memory (p + offset) 4 value) memory p (p + slabHdrSz) :=
  (store_sameOutside memory (p + offset) 4 value).mono (by omega) (by omega)

/-- Rewriting the head and the count of a page's free list. -/
def setFreeList (memory : Memory) (p head count : Nat) : Memory :=
  setFreeCount (setFreeHead memory p head) p count

theorem setFreeList_sameOutside (memory : Memory) (p head count : Nat) :
    SameOutside (setFreeList memory p head count) memory p (p + slabHdrSz) :=
  (header_store_sameOutside _ p 4 count (by decide)).trans
    (header_store_sameOutside memory p 0 head (by decide))

theorem setFreeList_field {memory : Memory} {p head count offset : Nat} (later : 8 ≤ offset) :
    load (setFreeList memory p head count) (p + offset) 4 = load memory (p + offset) 4 := by
  unfold setFreeList setFreeCount setFreeHead
  rw [load_store_of_apart _ _ (by omega), load_store_of_apart _ _ (by omega)]

/-- A page whose free list was exchanged for one described by the links in
memory. -/
theorem SlabPage.setFreeList {memory : Memory} {p c head : Nat} {freeSlots freeSlots' : List Nat}
    (isPage : SlabPage memory p c freeSlots) (isClass : c < slabNumClasses)
    (chain : Chain (slotNext memory p (slabSize c)) slabNil head freeSlots')
    (headFits : head < 2 ^ 32)
    (bounded : ∀ idx ∈ freeSlots', idx < slotCount (slabSize c)) (nodup : freeSlots'.Nodup) :
    SlabPage (setFreeList memory p head freeSlots'.length) p c freeSlots' where
  objSize_eq := (setFreeList_field (by decide)).trans isPage.objSize_eq
  classIdx_eq := (setFreeList_field (by decide)).trans isPage.classIdx_eq
  freeCount_eq := by
    have short : freeSlots'.length ≤ (List.range (slotCount (slabSize c))).length :=
      (List.subperm_of_subset nodup fun idx member =>
        List.mem_range.mpr (bounded idx member)).length_le
    rw [List.length_range] at short
    have few := (slotCount_bounds isClass).2
    exact load_store_of_lt _ (p + 4) (by omega)
  chain := by
    have headEq : freeHead (Heap.setFreeList memory p head freeSlots'.length) p = head := by
      unfold freeHead Heap.setFreeList setFreeCount setFreeHead
      rw [load_store_of_apart _ _ (by omega), load_store_of_lt _ _ (by omega)]
    rw [headEq]
    refine chain.congr fun idx member => ?_
    have bounds := slotPtr_bounds p (bounded idx member)
    have large := (slabSize_bounds isClass).1
    exact load_congr ((setFreeList_sameOutside memory p head _).sameOn (by omega))
  bounded := bounded
  nodup := nodup

/-! ## Allocation in a page -/

theorem slabNil_fits : slabNil < 2 ^ 32 := by decide

/-- The head of a free list is a slot number or nil, so it fits its field. -/
theorem SlabPage.head_lt {memory : Memory} {p c head : Nat} {freeSlots : List Nat}
    (isClass : c < slabNumClasses)
    (chain : Chain (slotNext memory p (slabSize c)) slabNil head freeSlots)
    (bounded : ∀ idx ∈ freeSlots, idx < slotCount (slabSize c)) : head < 2 ^ 32 := by
  rw [chain.head_eq]
  cases freeSlots with
  | nil => exact slabNil_fits
  | cons idx freeSlots =>
      have inside := bounded idx (by simp)
      have few := (slotCount_bounds isClass).2
      simp only [List.headD_cons]
      omega

/-- `slab_alloc` on a page with a free slot takes the first one. -/
theorem takeSlot_spec {heap : KernelHeap} {pages free : Nat → List Nat} {c p idx : Nat}
    {rest : List Nat} (inv : SlabInv heap pages free) (isClass : c < slabNumClasses)
    (member : p ∈ pages c) (available : free p = idx :: rest) :
    ∃ memory', takeSlot heap.memory p (slabSize c) =
        (memory', slotPtr p (slabSize c) idx) ∧
      SlabInv ⟨memory', heap.slabCache⟩ pages (Function.update free p rest) ∧
      SameOutside memory' heap.memory p (p + pageSize) ∧
      ∀ j < slotCount (slabSize c), j ≠ idx →
        SameOn memory' heap.memory (slotPtr p (slabSize c) j)
          (slotPtr p (slabSize c) j + slabSize c) := by
  have isPage := inv.page c isClass p member
  rw [available] at isPage
  have sizes : pageSize = 4096 ∧ slabHdrSz = 32 := ⟨rfl, rfl⟩
  have inside : idx < slotCount (slabSize c) := isPage.bounded idx (by simp)
  have bounds := slotPtr_bounds p inside
  have headEq : freeHead heap.memory p = idx := isPage.chain.1
  have bounded : ∀ j ∈ rest, j < slotCount (slabSize c) := fun j isFree =>
    isPage.bounded j (by simp [isFree])
  have tailChain := isPage.chain.2.2
  have nextFits := SlabPage.head_lt isClass tailChain bounded
  have count : freeCount (setFreeHead heap.memory p (slotNext heap.memory p (slabSize c) idx)) p
      - 1 = rest.length := by
    unfold freeCount setFreeHead
    rw [load_store_of_apart _ _ (by omega)]
    have stored := isPage.freeCount_eq
    unfold freeCount at stored
    rw [stored]
    simp
  have listSame := setFreeList_sameOutside heap.memory p
    (slotNext heap.memory p (slabSize c) idx) rest.length
  have listPage := isPage.setFreeList isClass tailChain nextFits bounded isPage.nodup.of_cons
  have listInv := inv.update_page isClass member (listSame.mono (Nat.le_refl _) (by omega))
    (setFreeList_field (by decide)) listPage
  have cleared := fill_sameOutside (setFreeList heap.memory p
    (slotNext heap.memory p (slabSize c) idx) rest.length) (slotPtr p (slabSize c) idx)
    (slabSize c) 0
  have notFree : idx ∉ Function.update free p rest p := by
    rw [Function.update_self]
    exact (List.nodup_cons.mp isPage.nodup).1
  refine ⟨_, ?_, listInv.write_slot isClass member inside notFree cleared, ?_, ?_⟩
  · simp only [takeSlot, headEq]
    unfold slotNext at count
    rw [count]
    rfl
  · exact (cleared.mono (by omega) (by omega)).trans (listSame.mono (Nat.le_refl _) (by omega))
  · intro j insideJ different address lower upper
    have boundsJ := slotPtr_bounds p insideJ
    have apart := slotPtr_apart p (slabSize c) different
    exact (cleared.sameOn (by omega) address lower upper).trans
      (listSame.sameOn (by omega) address lower upper)

/-! ## Release into a page -/

/-- `slab_free` puts the slot at the front of its page's free list. -/
theorem slabFree_spec {heap : KernelHeap} {pages free : Nat → List Nat} {c p idx : Nat}
    (inv : SlabInv heap pages free) (isClass : c < slabNumClasses) (member : p ∈ pages c)
    (inside : idx < slotCount (slabSize c)) (used : idx ∉ free p) :
    SlabInv ⟨slabFree heap.memory (slotPtr p (slabSize c) idx) p, heap.slabCache⟩ pages
        (Function.update free p (idx :: free p)) ∧
      SameOutside (slabFree heap.memory (slotPtr p (slabSize c) idx) p) heap.memory
        p (p + pageSize) ∧
      ∀ j < slotCount (slabSize c), j ≠ idx →
        SameOn (slabFree heap.memory (slotPtr p (slabSize c) idx) p) heap.memory
          (slotPtr p (slabSize c) j) (slotPtr p (slabSize c) j + slabSize c) := by
  have isPage := inv.page c isClass p member
  have physical := inv.physical c isClass p member
  have sizes : pageSize = 4096 ∧ slabHdrSz = 32 ∧ ramEndMax = 2 ^ 36 := ⟨rfl, rfl, rfl⟩
  have bounds := slotPtr_bounds p inside
  have high := physical.high
  have large := (slabSize_bounds isClass).1
  have few := (slotCount_bounds isClass).2
  have index : u32 (sub64 (slotPtr p (slabSize c) idx) (p + slabHdrSz)) / slabSize c = idx := by
    have offset : slotPtr p (slabSize c) idx - (p + slabHdrSz) = idx * slabSize c := by
      unfold slotPtr; omega
    rw [sub64_of_le (by omega) (by omega), offset, u32_of_lt (by omega),
      Nat.mul_div_cancel _ (by omega)]
  have linkSame := store_sameOutside heap.memory (slotPtr p (slabSize c) idx) 4
    (freeHead heap.memory p)
  have linkInv := inv.write_slot isClass member inside used
    (linkSame.mono (Nat.le_refl _) (by omega))
  have linked : slotNext (store heap.memory (slotPtr p (slabSize c) idx) 4
      (freeHead heap.memory p)) p (slabSize c) idx = freeHead heap.memory p :=
    load_store_of_lt _ _ (by
      have fits := SlabPage.head_lt isClass isPage.chain isPage.bounded
      omega)
  have sameHead : freeHead (store heap.memory (slotPtr p (slabSize c) idx) 4
      (freeHead heap.memory p)) p = freeHead heap.memory p :=
    load_congr (linkSame.sameOn (by omega))
  have shape : slabFree heap.memory (slotPtr p (slabSize c) idx) p =
      setFreeList (store heap.memory (slotPtr p (slabSize c) idx) 4 (freeHead heap.memory p)) p
        idx (idx :: free p).length := by
    have stored := (linkInv.page c isClass p member).freeCount_eq
    unfold freeCount at stored
    have count : freeCount (setFreeHead (store heap.memory (slotPtr p (slabSize c) idx) 4
        (freeHead heap.memory p)) p idx) p + 1 = (idx :: free p).length := by
      unfold freeCount setFreeHead
      rw [load_store_of_apart _ _ (by omega), stored]
      rfl
    unfold slabFree
    rw [isPage.objSize_eq]
    simp only [index, count]
    rfl
  rw [shape]
  generalize store heap.memory (slotPtr p (slabSize c) idx) 4 (freeHead heap.memory p) = linkMemory
    at linkSame linkInv linked sameHead
  have linkPage := linkInv.page c isClass p member
  have chain : Chain (slotNext linkMemory p (slabSize c)) slabNil idx (idx :: free p) := by
    refine ⟨rfl, ?_, ?_⟩
    · unfold slabNil
      omega
    · rw [linked, ← sameHead]
      exact linkPage.chain
  have bounded : ∀ j ∈ idx :: free p, j < slotCount (slabSize c) := by
    intro j isFree
    rcases List.mem_cons.mp isFree with rfl | isFree
    · exact inside
    · exact isPage.bounded j isFree
  have listPage := linkPage.setFreeList isClass chain (by omega) bounded
    (List.nodup_cons.mpr ⟨used, isPage.nodup⟩)
  have listSame := setFreeList_sameOutside linkMemory p idx (idx :: free p).length
  refine ⟨linkInv.update_page isClass member (listSame.mono (Nat.le_refl _) (by omega))
    (setFreeList_field (by decide)) listPage, ?_, ?_⟩
  · exact (listSame.mono (Nat.le_refl _) (by omega)).trans
      (linkSame.mono (by omega) (by omega))
  · intro j insideJ different address lower upper
    have boundsJ := slotPtr_bounds p insideJ
    have apart := slotPtr_apart p (slabSize c) different
    exact (listSame.sameOn (by omega) address lower upper).trans
      (linkSame.sameOn (by omega) address lower upper)

/-! ## New pages -/

theorem threadSlots_sameOutside (memory : Memory) (p n : Nat) {c count : Nat}
    (isClass : c < slabNumClasses) (within : count ≤ slotCount (slabSize c)) :
    SameOutside (threadSlots memory p (slabSize c) n count) memory (p + slabHdrSz)
      (p + pageSize) := by
  induction count with
  | zero => exact .refl _ _ _
  | succ count ih =>
      have bounds := slotPtr_bounds p (Nat.lt_of_succ_le within)
      have large := (slabSize_bounds isClass).1
      exact ((store_sameOutside _ _ _ _).mono (by omega) (by omega)).trans (ih (by omega))

/-- After threading, slot `i` links to slot `i + 1`, the last one to nil. -/
theorem slotNext_threadSlots (memory : Memory) (p n : Nat) {c count i : Nat}
    (isClass : c < slabNumClasses) (within : count ≤ slotCount (slabSize c)) (below : i < count)
    (few : n < 2 ^ 32) :
    slotNext (threadSlots memory p (slabSize c) n count) p (slabSize c) i =
      if i + 1 < n then i + 1 else slabNil := by
  have fits : (if i + 1 < n then i + 1 else slabNil) < 256 ^ 4 := by
    unfold slabNil
    split <;> omega
  induction count with
  | zero => omega
  | succ count ih =>
      unfold slotNext threadSlots
      by_cases last : i = count
      · subst last
        exact load_store_of_lt _ _ fits
      · have apart := slotPtr_apart p (slabSize c) last
        have large := (slabSize_bounds isClass).1
        rw [load_store_of_apart _ _ (by omega)]
        exact ih (by omega) (by omega)

end Systrix.Heap
