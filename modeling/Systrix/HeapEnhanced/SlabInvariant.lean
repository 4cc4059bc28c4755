import Systrix.Heap.SlabInvariant
import Systrix.HeapEnhanced.SlabTier

/-!
# Invariant of the enhanced slab tier

Every size class that fits slots into a page owns a doubly linked chain of pages, every page a list of
free slots; the headers and the links in memory describe these lists.
-/

namespace Systrix.HeapEnhanced

open ByteMemory Machine LinkedList
open Heap (PhysicalPage)

/-- The first size class whose slots are too large for a page with its header. -/
def firstHollow : Nat := 8

/-! ## Slot geometry -/

theorem slabSize_bounds : ∀ {c : Nat}, c < firstHollow → 16 ≤ slabSize c ∧ slabSize c ≤ 2048 := by
  decide

theorem slotCount_bounds :
    ∀ {c : Nat}, c < firstHollow → 0 < slotCount (slabSize c) ∧ slotCount (slabSize c) < slotFuel := by
  decide

/-- A slot lies inside its page, after the header. -/
theorem slotPtr_bounds (page : Nat) {size idx : Nat} (inside : idx < slotCount size) :
    page + slabHdrSz ≤ slotPtr page size idx ∧ slotPtr page size idx + size ≤ page + pageSize := by
  have step : (idx + 1) * size ≤ slotCount size * size := Nat.mul_le_mul_right size inside
  have all : slotCount size * size ≤ pageSize - slabHdrSz := Nat.div_mul_le_self _ _
  have sizes : pageSize = 4096 ∧ slabHdrSz = 48 := ⟨rfl, rfl⟩
  rw [Nat.succ_mul] at step
  unfold slotPtr
  omega

/-- Distinct slots of a page do not meet. -/
theorem slotPtr_apart (page size : Nat) {i j : Nat} (different : i ≠ j) :
    slotPtr page size i + size ≤ slotPtr page size j ∨ slotPtr page size j + size ≤ slotPtr page size i := by
  unfold slotPtr
  rcases Nat.lt_or_gt_of_ne different with less | less
  · have step : (i + 1) * size ≤ j * size := Nat.mul_le_mul_right size less
    rw [Nat.succ_mul] at step
    omega
  · have step : (j + 1) * size ≤ i * size := Nat.mul_le_mul_right size less
    rw [Nat.succ_mul] at step
    omega

theorem pageBase_slotPtr {page size idx : Nat} (aligned : page % pageSize = 0) (inside : idx < slotCount size)
    (positive : 0 < size) : pageBase (slotPtr page size idx) = page := by
  have bounds := slotPtr_bounds page inside
  exact Heap.pageBase_eq aligned (by omega) (by omega)

/-- A list of different slots is not longer than the page has slots. -/
theorem slots_length_le {n : Nat} {slots : List Nat} (bounded : ∀ idx ∈ slots, idx < n) (nodup : slots.Nodup) :
    slots.length ≤ n := by
  have within : slots ⊆ List.range n := fun idx member => List.mem_range.mpr (bounded idx member)
  simpa using (List.subperm_of_subset nodup within).length_le

/-- When there are as many, all slots of the page are on it. -/
theorem slots_all {n : Nat} {slots : List Nat} (bounded : ∀ idx ∈ slots, idx < n) (nodup : slots.Nodup)
    (count : slots.length = n) {idx : Nat} (inside : idx < n) : idx ∈ slots := by
  have within : slots ⊆ List.range n := fun idx member => List.mem_range.mpr (bounded idx member)
  have long : (List.range n).length ≤ slots.length := by rw [List.length_range, count]
  have perm := (List.subperm_of_subset nodup within).perm_of_length_le long
  exact perm.mem_iff.mpr (List.mem_range.mpr inside)

/-! ## Header fields -/

namespace SlabHdr

variable {memory memory' : Memory} {h : Nat} {field other : SlabHdr}

theorem offset_fits (field : SlabHdr) : field.offset + 4 ≤ slabHdrSz := by
  cases field <;> decide

theorem offset_apart (different : field ≠ other) :
    field.offset + 4 ≤ other.offset ∨ other.offset + 4 ≤ field.offset := by
  revert different
  cases field <;> cases other <;> decide

theorem set_sameOutside (memory : Memory) (h : Nat) (field : SlabHdr) (value : Nat) :
    SameOutside (set memory h field value) memory h (h + slabHdrSz) := by
  have fits := offset_fits field
  exact (store_sameOutside memory (h + field.offset) 4 value).mono (by omega) (by omega)

@[simp] theorem get_set_self (memory : Memory) (h : Nat) (field : SlabHdr) (value : Nat) :
    get (set memory h field value) h field = u32 value := load_store_self _ _ _ _

theorem get_set_of_ne (memory : Memory) (h value : Nat) (different : field ≠ other) :
    get (set memory h other value) h field = get memory h field := by
  have apart := offset_apart different
  exact load_store_of_apart _ _ (by omega)

theorem get_set (memory : Memory) (h value : Nat) (field other : SlabHdr) :
    get (set memory h other value) h field = if field = other then u32 value else get memory h field := by
  by_cases same : field = other
  · rw [same, if_pos rfl, get_set_self]
  · rw [if_neg same, get_set_of_ne _ _ _ same]

theorem get_congr (same : SameOn memory' memory h (h + slabHdrSz)) :
    get memory' h field = get memory h field := by
  have fits := offset_fits field
  exact load_congr fun address lower upper => same address (by omega) (by omega)

theorem get_set_of_apart (memory : Memory) (value : Nat) {h' : Nat}
    (apart : h + slabHdrSz ≤ h' ∨ h' + slabHdrSz ≤ h) :
    get (set memory h' other value) h field = get memory h field :=
  get_congr ((set_sameOutside memory h' other value).sameOn apart)

theorem get_lt (memory : Memory) (h : Nat) (field : SlabHdr) : get memory h field < 2 ^ 32 :=
  load_lt memory (h + field.offset) 4

end SlabHdr

/-! ## The invariant -/

/-- `next_slab` of each page. -/
def nextSlab (memory : Memory) (p : Nat) : Nat := SlabHdr.get memory p .nextSlab

/-- `prev_slab` of each page. -/
def prevSlab (memory : Memory) (p : Nat) : Nat := SlabHdr.get memory p .prevSlab

/-- Link stored in slot `idx` of a page. -/
def slotNext (memory : Memory) (page size idx : Nat) : Nat := load memory (slotPtr page size idx) 4

/-- A page of class `c` whose free list is `freeSlots`. -/
structure SlabPage (memory : Memory) (p c : Nat) (freeSlots : List Nat) : Prop where
  objSize_eq : SlabHdr.get memory p .objSize = slabSize c
  classIdx_eq : SlabHdr.get memory p .classIdx = c
  total_eq : SlabHdr.get memory p .total = slotCount (slabSize c)
  freeCount_eq : SlabHdr.get memory p .freeCount = freeSlots.length
  allocCount_eq : SlabHdr.get memory p .allocCount = slotCount (slabSize c) - freeSlots.length
  chain : Chain (slotNext memory p (slabSize c)) slabNil (SlabHdr.get memory p .freeHead) freeSlots
  bounded : ∀ idx ∈ freeSlots, idx < slotCount (slabSize c)
  nodup : freeSlots.Nodup

/-- Memory and class heads describe page chains and free lists. -/
structure SlabInv (heap : EnhancedHeap) (pages free : Nat → List Nat) : Prop where
  chains : ∀ c < slabNumClasses, Chain (nextSlab heap.memory) 0 (heap.slabCache c) (pages c)
  back : ∀ c < slabNumClasses, BackLinks u32 (prevSlab heap.memory) 0 (pages c)
  page : ∀ c < slabNumClasses, ∀ p ∈ pages c, SlabPage heap.memory p c (free p)
  served : ∀ c < slabNumClasses, ∀ p ∈ pages c, c < firstHollow
  physical : ∀ c < slabNumClasses, ∀ p ∈ pages c, PhysicalPage p
  nodup : ∀ c < slabNumClasses, (pages c).Nodup

/-- The fields of a header but for its links are the same. -/
def SameFields (memory' memory : Memory) (p : Nat) : Prop :=
  ∀ field, field ≠ .nextSlab → field ≠ .prevSlab → SlabHdr.get memory' p field = SlabHdr.get memory p field

namespace SlabPage

variable {memory memory' : Memory} {p c : Nat} {freeSlots : List Nat}

theorem length_le (isPage : SlabPage memory p c freeSlots) : freeSlots.length ≤ slotCount (slabSize c) :=
  slots_length_le isPage.bounded isPage.nodup

/-- Only the fields and the links of free slots matter. -/
theorem congr (isPage : SlabPage memory p c freeSlots) (fields : SameFields memory' memory p)
    (links : ∀ idx ∈ freeSlots, SameOn memory' memory (slotPtr p (slabSize c) idx)
      (slotPtr p (slabSize c) idx + 4)) : SlabPage memory' p c freeSlots where
  objSize_eq := (fields .objSize (by decide) (by decide)).trans isPage.objSize_eq
  classIdx_eq := (fields .classIdx (by decide) (by decide)).trans isPage.classIdx_eq
  total_eq := (fields .total (by decide) (by decide)).trans isPage.total_eq
  freeCount_eq := (fields .freeCount (by decide) (by decide)).trans isPage.freeCount_eq
  allocCount_eq := (fields .allocCount (by decide) (by decide)).trans isPage.allocCount_eq
  chain := by
    rw [fields .freeHead (by decide) (by decide)]
    exact isPage.chain.congr fun idx member => load_congr (links idx member)
  bounded := isPage.bounded
  nodup := isPage.nodup

/-- The head of a free list is a slot number or nil, so it fits its field. -/
theorem head_lt {head : Nat} (isClass : c < firstHollow)
    (chain : Chain (slotNext memory p (slabSize c)) slabNil head freeSlots)
    (bounded : ∀ idx ∈ freeSlots, idx < slotCount (slabSize c)) : head < 2 ^ 32 := by
  rw [chain.head_eq]
  cases freeSlots with
  | nil => exact (by decide : slabNil < 2 ^ 32)
  | cons idx freeSlots =>
      have inside := bounded idx List.mem_cons_self
      have few := (slotCount_bounds isClass).2
      have fuel : slotFuel = 257 := rfl
      simp only [List.headD_cons]
      omega

/-- A page that did not change is the same page. -/
theorem frame (isPage : SlabPage memory p c freeSlots) (isClass : c < firstHollow)
    (same : SameOn memory' memory p (p + pageSize)) : SlabPage memory' p c freeSlots := by
  have sizes : pageSize = 4096 ∧ slabHdrSz = 48 := ⟨rfl, rfl⟩
  apply isPage.congr
  · intro field _ _
    exact SlabHdr.get_congr fun address lower upper => same address lower (by omega)
  · intro idx isFree address lower upper
    have bounds := slotPtr_bounds p (isPage.bounded idx isFree)
    have large := (slabSize_bounds isClass).1
    exact same address (by omega) (by omega)

end SlabPage

namespace SlabInv

variable {heap : EnhancedHeap} {memory' : Memory} {pages free : Nat → List Nat} {c d p q : Nat}

/-- A page belongs to the class its header names. -/
theorem class_unique (inv : SlabInv heap pages free) (isClass : c < slabNumClasses)
    (isClass' : d < slabNumClasses) (member : p ∈ pages c) (member' : p ∈ pages d) : c = d := by
  rw [← (inv.page c isClass p member).classIdx_eq, (inv.page d isClass' p member').classIdx_eq]

theorem apart (inv : SlabInv heap pages free) (isClass : c < slabNumClasses) (isClass' : d < slabNumClasses)
    (member : p ∈ pages c) (member' : q ∈ pages d) (different : q ≠ p) :
    q + pageSize ≤ p ∨ p + pageSize ≤ q :=
  (inv.physical d isClass' q member').apart (inv.physical c isClass p member) different

/-- Updating one page: its links are kept and its new header describes `freeSlots`. -/
theorem update_page {freeSlots : List Nat} (inv : SlabInv heap pages free) (isClass : c < slabNumClasses)
    (member : p ∈ pages c) (same : SameOutside memory' heap.memory p (p + pageSize))
    (next : nextSlab memory' p = nextSlab heap.memory p) (prev : prevSlab memory' p = prevSlab heap.memory p)
    (isPage : SlabPage memory' p c freeSlots) :
    SlabInv ⟨memory', heap.slabCache⟩ pages (Function.update free p freeSlots) := by
  have kept : ∀ d < slabNumClasses, ∀ q ∈ pages d, q ≠ p →
      SameOn memory' heap.memory q (q + pageSize) := fun d isClass' q member' different =>
    same.sameOn (inv.apart isClass isClass' member member' different)
  have header : ∀ d < slabNumClasses, ∀ q ∈ pages d, q ≠ p →
      ∀ field, SlabHdr.get memory' q field = SlabHdr.get heap.memory q field := by
    intro d isClass' q member' different field
    have sizes : pageSize = 4096 ∧ slabHdrSz = 48 := ⟨rfl, rfl⟩
    exact SlabHdr.get_congr fun address lower upper =>
      kept d isClass' q member' different address lower (by omega)
  refine ⟨fun d isClass' => ?_, fun d isClass' => ?_, fun d isClass' q member' => ?_, inv.served,
    inv.physical, inv.nodup⟩
  · refine (inv.chains d isClass').congr fun q member' => ?_
    by_cases here : q = p
    · rw [here, next]
    · exact header d isClass' q member' here _
  · refine (inv.back d isClass').congr fun q member' => ?_
    by_cases here : q = p
    · rw [here, prev]
    · exact header d isClass' q member' here _
  · by_cases here : q = p
    · subst here
      obtain rfl := inv.class_unique isClass isClass' member member'
      rwa [Function.update_self]
    · rw [Function.update_of_ne here]
      exact (inv.page d isClass' q member').frame (inv.served d isClass' q member')
        (kept d isClass' q member' here)

/-- Changes outside the pages are not seen. -/
theorem elsewhere (inv : SlabInv heap pages free)
    (same : ∀ c < slabNumClasses, ∀ p ∈ pages c, SameOn memory' heap.memory p (p + pageSize)) :
    SlabInv ⟨memory', heap.slabCache⟩ pages free := by
  have sizes : pageSize = 4096 ∧ slabHdrSz = 48 := ⟨rfl, rfl⟩
  have header : ∀ c < slabNumClasses, ∀ p ∈ pages c, ∀ field,
      SlabHdr.get memory' p field = SlabHdr.get heap.memory p field := fun c isClass p member field =>
    SlabHdr.get_congr fun address lower upper => same c isClass p member address lower (by omega)
  refine ⟨fun c isClass => ?_, fun c isClass => ?_, fun c isClass p member => ?_, inv.served, inv.physical,
    inv.nodup⟩
  · exact (inv.chains c isClass).congr fun p member => header c isClass p member _
  · exact (inv.back c isClass).congr fun p member => header c isClass p member _
  · exact (inv.page c isClass p member).frame (inv.served c isClass p member) (same c isClass p member)

/-- Changes inside one slot that is not free are not seen. -/
theorem write_slot (inv : SlabInv heap pages free) (isClass : c < slabNumClasses) (member : p ∈ pages c)
    {idx : Nat} (inside : idx < slotCount (slabSize c)) (used : idx ∉ free p)
    (same : SameOutside memory' heap.memory (slotPtr p (slabSize c) idx)
      (slotPtr p (slabSize c) idx + slabSize c)) :
    SlabInv ⟨memory', heap.slabCache⟩ pages free := by
  have bounds := slotPtr_bounds p inside
  have header : ∀ field, SlabHdr.get memory' p field = SlabHdr.get heap.memory p field := fun field =>
    SlabHdr.get_congr (same.sameOn (.inl (by omega)))
  have isPage : SlabPage memory' p c (free p) := by
    refine (inv.page c isClass p member).congr (fun field _ _ => header field) fun other isFree => ?_
    have distinct : idx ≠ other := fun equal => used (equal ▸ isFree)
    have far := slotPtr_apart p (slabSize c) distinct
    have large := (slabSize_bounds (inv.served c isClass p member)).1
    exact same.sameOn (by omega)
  have updated := inv.update_page isClass member (same.mono (by omega) (by omega)) (header _) (header _) isPage
  rwa [Function.update_eq_self] at updated

end SlabInv

/-! ## Free lists -/

/-- The head of a page's free list and its two counts are rewritten. -/
def setFreeList (memory : Memory) (p head free_count alloc_count : Nat) : Memory :=
  SlabHdr.set (SlabHdr.set (SlabHdr.set memory p .freeHead head) p .freeCount free_count) p .allocCount alloc_count

theorem setFreeList_sameOutside (memory : Memory) (p head free_count alloc_count : Nat) :
    SameOutside (setFreeList memory p head free_count alloc_count) memory p (p + slabHdrSz) :=
  (SlabHdr.set_sameOutside _ p _ _).trans
    ((SlabHdr.set_sameOutside _ p _ _).trans (SlabHdr.set_sameOutside memory p _ _))

theorem get_setFreeList {memory : Memory} {p head free_count alloc_count : Nat} {field : SlabHdr}
    (head_ne : field ≠ .freeHead) (free_ne : field ≠ .freeCount) (alloc_ne : field ≠ .allocCount) :
    SlabHdr.get (setFreeList memory p head free_count alloc_count) p field = SlabHdr.get memory p field := by
  unfold setFreeList
  rw [SlabHdr.get_set_of_ne _ _ _ alloc_ne, SlabHdr.get_set_of_ne _ _ _ free_ne, SlabHdr.get_set_of_ne _ _ _ head_ne]

/-- A page whose free list was exchanged for one described by the links in memory. -/
theorem SlabPage.setFreeList {memory : Memory} {p c head : Nat} {freeSlots freeSlots' : List Nat}
    (isPage : SlabPage memory p c freeSlots) (isClass : c < firstHollow)
    (chain : Chain (slotNext memory p (slabSize c)) slabNil head freeSlots')
    (bounded : ∀ idx ∈ freeSlots', idx < slotCount (slabSize c)) (nodup : freeSlots'.Nodup) :
    SlabPage (setFreeList memory p head freeSlots'.length (slotCount (slabSize c) - freeSlots'.length)) p c
      freeSlots' := by
  have short := slots_length_le bounded nodup
  have few := (slotCount_bounds isClass).2
  have fuel : slotFuel = 257 := rfl
  refine ⟨?_, ?_, ?_, ?_, ?_, ?_, bounded, nodup⟩
  · exact (get_setFreeList (by decide) (by decide) (by decide)).trans isPage.objSize_eq
  · exact (get_setFreeList (by decide) (by decide) (by decide)).trans isPage.classIdx_eq
  · exact (get_setFreeList (by decide) (by decide) (by decide)).trans isPage.total_eq
  · rw [HeapEnhanced.setFreeList, SlabHdr.get_set_of_ne _ _ _ (by decide), SlabHdr.get_set_self,
      u32_of_lt (by omega)]
  · rw [HeapEnhanced.setFreeList, SlabHdr.get_set_self, u32_of_lt (by omega)]
  · rw [HeapEnhanced.setFreeList, SlabHdr.get_set_of_ne _ _ _ (by decide),
      SlabHdr.get_set_of_ne _ _ _ (by decide), SlabHdr.get_set_self,
      u32_of_lt (SlabPage.head_lt isClass chain bounded)]
    refine chain.congr fun idx member => ?_
    have bounds := slotPtr_bounds p (bounded idx member)
    have large := (slabSize_bounds isClass).1
    exact load_congr ((setFreeList_sameOutside memory p head _ _).sameOn (by omega))

end Systrix.HeapEnhanced
