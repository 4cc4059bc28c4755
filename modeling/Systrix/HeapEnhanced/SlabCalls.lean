import Systrix.HeapEnhanced.SlabInvariant

/-!
# Calls of the enhanced slab tier

What `slab_alloc` and `slab_free` do to the chains and the free lists, a page that is added, one that is
emptied and given back.
-/

namespace Systrix.HeapEnhanced

open ByteMemory Machine LinkedList
open Heap (PhysicalPage)

section Slots

variable {heap : EnhancedHeap} {pages free : Nat → List Nat} {c p idx : Nat} {rest : List Nat}

/-- The slot that is taken is the first free one of its page. -/
theorem takeSlot_spec (inv : SlabInv heap pages free) (isClass : c < slabNumClasses) (member : p ∈ pages c)
    (available : free p = idx :: rest) :
    ∃ memory', takeSlot heap.memory p (slabSize c) = (memory', slotPtr p (slabSize c) idx) ∧
      SlabInv ⟨memory', heap.slabCache⟩ pages (Function.update free p rest) ∧
      SameOutside memory' heap.memory p (p + pageSize) := by
  have isPage := inv.page c isClass p member
  have served := inv.served c isClass p member
  rw [available] at isPage
  have sizes : pageSize = 4096 ∧ slabHdrSz = 48 ∧ redzoneSize = 8 := ⟨rfl, rfl, rfl⟩
  have inside : idx < slotCount (slabSize c) := isPage.bounded idx List.mem_cons_self
  have bounds := slotPtr_bounds p inside
  have large := (slabSize_bounds served).1
  have full := isPage.length_le
  have few := (slotCount_bounds served).2
  have fuel : slotFuel = 257 := rfl
  rw [List.length_cons] at full
  have headEq : SlabHdr.get heap.memory p .freeHead = idx := isPage.chain.1
  have bounded : ∀ j ∈ rest, j < slotCount (slabSize c) := fun j isFree =>
    isPage.bounded j (List.mem_cons_of_mem _ isFree)
  have listPage := isPage.setFreeList served isPage.chain.2.2 bounded isPage.nodup.of_cons
  have listSame := setFreeList_sameOutside heap.memory p (slotNext heap.memory p (slabSize c) idx) rest.length
    (slotCount (slabSize c) - rest.length)
  have listInv := inv.update_page isClass member (listSame.mono (Nat.le_refl _) (by omega))
    (get_setFreeList (by decide) (by decide) (by decide)) (get_setFreeList (by decide) (by decide) (by decide))
    listPage
  have count : ∀ head, sub32 (SlabHdr.get (SlabHdr.set heap.memory p .freeHead head) p .freeCount) 1 =
      rest.length := by
    intro head
    rw [SlabHdr.get_set_of_ne _ _ _ (by decide), isPage.freeCount_eq, List.length_cons,
      sub32_of_le (by omega) (by omega), Nat.add_sub_cancel]
  have used : ∀ head count, u32 (SlabHdr.get (SlabHdr.set (SlabHdr.set heap.memory p .freeHead head) p
      .freeCount count) p .allocCount + 1) = slotCount (slabSize c) - rest.length := by
    intro head count
    rw [SlabHdr.get_set_of_ne _ _ _ (by decide), SlabHdr.get_set_of_ne _ _ _ (by decide), isPage.allocCount_eq,
      List.length_cons, u32_of_lt (by omega)]
    omega
  have shape : takeSlot heap.memory p (slabSize c) =
      (store (fill (setFreeList heap.memory p (slotNext heap.memory p (slabSize c) idx) rest.length
          (slotCount (slabSize c) - rest.length)) (slotPtr p (slabSize c) idx) (slabSize c - redzoneSize) 0)
        (slotPtr p (slabSize c) idx + (slabSize c - redzoneSize)) 2 redzoneMagic, slotPtr p (slabSize c) idx) := by
    unfold takeSlot setFreeList
    dsimp only
    rw [count, used, headEq]
    rfl
  generalize setFreeList heap.memory p (slotNext heap.memory p (slabSize c) idx) rest.length
    (slotCount (slabSize c) - rest.length) = memory₁ at listSame listInv shape
  have filled : SameOutside (fill memory₁ (slotPtr p (slabSize c) idx) (slabSize c - redzoneSize) 0) memory₁
      (slotPtr p (slabSize c) idx) (slotPtr p (slabSize c) idx + slabSize c) :=
    (fill_sameOutside memory₁ _ _ 0).mono (by omega) (by omega)
  have cleared := ((store_sameOutside (fill memory₁ (slotPtr p (slabSize c) idx) (slabSize c - redzoneSize) 0)
      (slotPtr p (slabSize c) idx + (slabSize c - redzoneSize)) 2 redzoneMagic).mono (by omega) (by omega)).trans
    filled
  have notFree : idx ∉ Function.update free p rest p := by
    rw [Function.update_self]
    exact (List.nodup_cons.mp isPage.nodup).1
  refine ⟨_, shape, listInv.write_slot isClass member inside notFree cleared, ?_⟩
  exact (cleared.mono (by omega) (by omega)).trans (listSame.mono (Nat.le_refl _) (by omega))

/-- The walk over the free list finds the slots that are on it. -/
theorem onFreeList_eq {memory : Memory} {size head fuel : Nat} {freeSlots : List Nat}
    (chain : Chain (slotNext memory p size) slabNil head freeSlots) (enough : freeSlots.length < fuel) :
    onFreeList memory p size idx fuel head = some (decide (idx ∈ freeSlots)) := by
  induction freeSlots generalizing head fuel with
  | nil =>
      obtain ⟨more, rfl⟩ : ∃ more, fuel = more + 1 := ⟨fuel - 1, by omega⟩
      have isNil : head = slabNil := chain
      simp [onFreeList, isNil]
  | cons first rest ih =>
      obtain ⟨more, rfl⟩ : ∃ more, fuel = more + 1 := ⟨fuel - 1, by omega⟩
      obtain ⟨rfl, nonNil, tail⟩ := chain
      rw [List.length_cons] at enough
      rw [onFreeList, if_neg nonNil]
      by_cases here : head = idx
      · simp [here]
      · rw [if_neg here]
        have later := ih tail (by omega : rest.length < more)
        unfold slotNext at later
        rw [later]
        simp [Ne.symm here]

/-- The slot goes to the front of its page's free list. -/
theorem returnSlot_spec (inv : SlabInv heap pages free) (isClass : c < slabNumClasses) (member : p ∈ pages c)
    (inside : idx < slotCount (slabSize c)) (used : idx ∉ free p) :
    SlabInv ⟨returnSlot heap.memory (slotPtr p (slabSize c) idx) p idx, heap.slabCache⟩ pages
        (Function.update free p (idx :: free p)) ∧
      SameOutside (returnSlot heap.memory (slotPtr p (slabSize c) idx) p idx) heap.memory p (p + pageSize) := by
  have isPage := inv.page c isClass p member
  have served := inv.served c isClass p member
  have sizes : pageSize = 4096 ∧ slabHdrSz = 48 ∧ redzoneSize = 8 := ⟨rfl, rfl, rfl⟩
  have bounds := slotPtr_bounds p inside
  have large := (slabSize_bounds served).1
  have few := (slotCount_bounds served).2
  have fuel : slotFuel = 257 := rfl
  have poisoned := fill_sameOutside heap.memory (slotPtr p (slabSize c) idx) (slabSize c - redzoneSize) 0xAA
  generalize poison : fill heap.memory (slotPtr p (slabSize c) idx) (slabSize c - redzoneSize) 0xAA = memory₁
    at poisoned
  have linkSame : SameOutside (store memory₁ (slotPtr p (slabSize c) idx) 4 (SlabHdr.get memory₁ p .freeHead))
      heap.memory (slotPtr p (slabSize c) idx) (slotPtr p (slabSize c) idx + slabSize c) :=
    ((store_sameOutside memory₁ _ 4 _).mono (by omega) (by omega)).trans (poisoned.mono (by omega) (by omega))
  have linked : slotNext (store memory₁ (slotPtr p (slabSize c) idx) 4 (SlabHdr.get memory₁ p .freeHead)) p
      (slabSize c) idx = SlabHdr.get memory₁ p .freeHead :=
    load_store_of_lt _ _ (SlabHdr.get_lt memory₁ p .freeHead)
  have sameHead : SlabHdr.get memory₁ p .freeHead = SlabHdr.get heap.memory p .freeHead :=
    SlabHdr.get_congr (poisoned.sameOn (by omega))
  have bounded : ∀ j ∈ idx :: free p, j < slotCount (slabSize c) := by
    intro j isFree
    rcases List.mem_cons.mp isFree with rfl | isFree
    · exact inside
    · exact isPage.bounded j isFree
  have nodup := List.nodup_cons.mpr ⟨used, isPage.nodup⟩
  have short := slots_length_le bounded nodup
  have longer : (idx :: free p).length = (free p).length + 1 := List.length_cons
  have linkInv := inv.write_slot isClass member inside used linkSame
  have linkPage := linkInv.page c isClass p member
  have keptHead : SlabHdr.get (store memory₁ (slotPtr p (slabSize c) idx) 4 (SlabHdr.get memory₁ p .freeHead)) p
      .freeHead = SlabHdr.get memory₁ p .freeHead :=
    (SlabHdr.get_congr (linkSame.sameOn (by omega))).trans sameHead.symm
  have shape : returnSlot heap.memory (slotPtr p (slabSize c) idx) p idx =
      setFreeList (store memory₁ (slotPtr p (slabSize c) idx) 4 (SlabHdr.get memory₁ p .freeHead)) p idx
        (idx :: free p).length (slotCount (slabSize c) - (idx :: free p).length) := by
    unfold returnSlot
    dsimp only
    rw [isPage.objSize_eq, poison]
    generalize store memory₁ (slotPtr p (slabSize c) idx) 4 (SlabHdr.get memory₁ p .freeHead) = memory₂ at linkPage
    have count : u32 (SlabHdr.get (SlabHdr.set memory₂ p .freeHead idx) p .freeCount + 1) =
        (idx :: free p).length := by
      rw [SlabHdr.get_set_of_ne _ _ _ (by decide), linkPage.freeCount_eq, u32_of_lt (by omega), List.length_cons]
    have taken : ∀ count, sub32 (SlabHdr.get (SlabHdr.set (SlabHdr.set memory₂ p .freeHead idx) p .freeCount count)
        p .allocCount) 1 = slotCount (slabSize c) - (idx :: free p).length := by
      intro count
      rw [SlabHdr.get_set_of_ne _ _ _ (by decide), SlabHdr.get_set_of_ne _ _ _ (by decide), linkPage.allocCount_eq,
        sub32_of_le (by omega) (by omega)]
      omega
    rw [count, taken]
    rfl
  rw [shape]
  generalize store memory₁ (slotPtr p (slabSize c) idx) 4 (SlabHdr.get memory₁ p .freeHead) = memory₂
    at linkSame linked linkInv linkPage keptHead
  have chain : Chain (slotNext memory₂ p (slabSize c)) slabNil idx (idx :: free p) := by
    refine ⟨rfl, ?_, ?_⟩
    · unfold slabNil
      omega
    · rw [linked, ← keptHead]
      exact linkPage.chain
  have listPage := linkPage.setFreeList served chain bounded nodup
  have listSame := setFreeList_sameOutside memory₂ p idx (idx :: free p).length
    (slotCount (slabSize c) - (idx :: free p).length)
  refine ⟨linkInv.update_page isClass member (listSame.mono (Nat.le_refl _) (by omega))
    (get_setFreeList (by decide) (by decide) (by decide)) (get_setFreeList (by decide) (by decide) (by decide))
    listPage, ?_⟩
  exact (listSame.mono (Nat.le_refl _) (by omega)).trans (linkSame.mono (by omega) (by omega))

end Slots

/-! ## A fresh page -/

section Fresh

variable (memory : Memory) (p : Nat) {c : Nat}

theorem threadSlots_sameOutside (n : Nat) {count : Nat} (served : c < firstHollow)
    (within : count ≤ slotCount (slabSize c)) :
    SameOutside (threadSlots memory p (slabSize c) n count) memory (p + slabHdrSz) (p + pageSize) := by
  induction count with
  | zero => exact .refl _ _ _
  | succ count ih =>
      have bounds := slotPtr_bounds p (Nat.lt_of_succ_le within)
      have large := (slabSize_bounds served).1
      exact ((store_sameOutside _ _ _ _).mono (by omega) (by omega)).trans (ih (by omega))

/-- After threading, slot `i` links to slot `i + 1`, the last one to nil. -/
theorem slotNext_threadSlots {n count i : Nat} (served : c < firstHollow)
    (within : count ≤ slotCount (slabSize c)) (below : i < count) (few : n < 2 ^ 32) :
    slotNext (threadSlots memory p (slabSize c) n count) p (slabSize c) i =
      if i + 1 < n then i + 1 else slabNil := by
  have fits : (if i + 1 < n then i + 1 else slabNil) < 256 ^ 4 := by
    unfold slabNil
    split <;> omega
  induction count with
  | zero => omega
  | succ count ih =>
      unfold slotNext threadSlots
      by_cases last : i = count
      · subst last
        exact load_store_of_lt _ _ fits
      · have apart := slotPtr_apart p (slabSize c) last
        have large := (slabSize_bounds served).1
        rw [load_store_of_apart _ _ (by omega)]
        exact ih (by omega) (by omega)

theorem slabPageInit_sameOutside (served : c < firstHollow) :
    SameOutside (slabPageInit memory p c) memory p (p + pageSize) := by
  have header : ∀ memory field value, SameOutside (SlabHdr.set memory p field value) memory p (p + pageSize) :=
    fun memory field value => (SlabHdr.set_sameOutside memory p field value).mono (Nat.le_refl _)
      (Nat.add_le_add_left (by decide) p)
  have threaded : ∀ memory n, SameOutside (threadSlots memory p (slabSize c) n (slotCount (slabSize c))) memory p
      (p + pageSize) := fun memory n =>
    (threadSlots_sameOutside memory p n served (Nat.le_refl _)).mono (Nat.le_add_right _ _) (Nat.le_refl _)
  unfold slabPageInit
  exact (header _ _ _).trans ((threaded _ _).trans ((header _ _ _).trans ((header _ _ _).trans ((header _ _ _).trans
    ((header _ _ _).trans ((header _ _ _).trans ((header _ _ _).trans ((header _ _ _).trans ((header _ _ _).trans
      (fill_sameOutside memory p pageSize 0))))))))))

/-- The fields of a fresh page but for the head of its free list are those set before it is threaded. -/
theorem get_threadSlots (n : Nat) (field : SlabHdr) (served : c < firstHollow) :
    SlabHdr.get (threadSlots memory p (slabSize c) n (slotCount (slabSize c))) p field = SlabHdr.get memory p field :=
  SlabHdr.get_congr ((threadSlots_sameOutside memory p n served (Nat.le_refl _)).sameOn (.inl (Nat.le_refl _)))

/-- The header `slab_page_init` writes. -/
theorem get_slabPageInit (field : SlabHdr) (served : c < firstHollow) :
    SlabHdr.get (slabPageInit memory p c) p field = match field with
      | .objSize => u32 (slabSize c)
      | .classIdx => u32 c
      | .total => u32 (slotCount (slabSize c))
      | .freeCount => u32 (slotCount (slabSize c))
      | _ => 0 := by
  unfold slabPageInit
  cases field <;> simp only [SlabHdr.get_set, get_threadSlots _ _ _ _ served, reduceCtorEq, if_true, if_false] <;> rfl

theorem slabPageInit_page (served : c < firstHollow) :
    SlabPage (slabPageInit memory p c) p c (List.range (slotCount (slabSize c))) := by
  have size := slabSize_bounds served
  have few := slotCount_bounds served
  have fuel : slotFuel = 257 := rfl
  have classes : firstHollow = 8 := rfl
  refine ⟨?_, ?_, ?_, ?_, ?_, ?_, fun idx => List.mem_range.mp, List.nodup_range⟩
  · rw [get_slabPageInit memory p _ served]
    exact u32_of_lt (by omega)
  · rw [get_slabPageInit memory p _ served]
    exact u32_of_lt (by omega)
  · rw [get_slabPageInit memory p _ served]
    exact u32_of_lt (by omega)
  · rw [get_slabPageInit memory p _ served, List.length_range]
    exact u32_of_lt (by omega)
  · rw [get_slabPageInit memory p _ served, List.length_range, Nat.sub_self]
  · rw [get_slabPageInit memory p _ served, List.range_eq_range']
    have nilAbove : slotCount (slabSize c) ≤ slabNil := Nat.le_of_lt (Nat.lt_trans few.2 (by decide))
    refine Chain.consecutive few.1 nilAbove fun j inside => ?_
    have bounds := slotPtr_bounds p inside
    unfold slabPageInit
    refine (load_congr ((SlabHdr.set_sameOutside _ p .freeHead 0).sameOn (by omega))).trans ?_
    exact slotNext_threadSlots _ p served (Nat.le_refl _) inside (by omega)

end Fresh

/-! ## Links between pages -/

section Links

variable {heap : EnhancedHeap} {memory : Memory} {pages free : Nat → List Nat} {c d p q v : Nat}
  {field other : SlabHdr}

/-- What a link names: a page, or nothing. -/
def LinkTarget (p : Nat) : Prop := p = 0 ∨ PhysicalPage p

theorem LinkTarget.apart (target : LinkTarget p) (isPage : PhysicalPage q) (different : q ≠ p) :
    q + pageSize ≤ p ∨ p + slabHdrSz ≤ q := by
  have sizes : pageSize = 4096 ∧ slabHdrSz = 48 ∧ ramStart = 0x400000 := ⟨rfl, rfl, rfl⟩
  rcases target with rfl | isPage'
  · have low := isPage.low
    omega
  · have far := isPage.apart isPage' different
    omega

/-- Setting a field of a page changes that field only. -/
theorem get_set_page (target : LinkTarget p) (isPage : PhysicalPage q) (different : q = p → field ≠ other) :
    SlabHdr.get (SlabHdr.set memory p other v) q field = SlabHdr.get memory q field := by
  by_cases here : q = p
  · rw [here]
    exact SlabHdr.get_set_of_ne _ _ _ (different here)
  · have far := target.apart isPage here
    have sizes : pageSize = 4096 ∧ slabHdrSz = 48 := ⟨rfl, rfl⟩
    exact SlabHdr.get_set_of_apart _ _ (by omega)

/-- Setting a link of a page changes no page but for that link. -/
theorem SlabPage.set_link {freeSlots : List Nat} (slab : SlabPage memory q d freeSlots) (served : d < firstHollow)
    (target : LinkTarget p) (isPage : PhysicalPage q) (link : other = .nextSlab ∨ other = .prevSlab) :
    SlabPage (SlabHdr.set memory p other v) q d freeSlots := by
  have sizes : pageSize = 4096 ∧ slabHdrSz = 48 := ⟨rfl, rfl⟩
  apply slab.congr
  · intro field notNext notPrev
    refine get_set_page target isPage fun _ => ?_
    rcases link with rfl | rfl
    · exact notNext
    · exact notPrev
  · intro idx isFree
    have bounds := slotPtr_bounds q (slab.bounded idx isFree)
    have large := (slabSize_bounds served).1
    have same := SlabHdr.set_sameOutside memory p other v
    by_cases here : q = p
    · subst here
      exact same.sameOn (by omega)
    · have far := target.apart isPage here
      exact same.sameOn (by omega)

section LinkPage

variable {head : Nat} (isPage : PhysicalPage p) (isHead : LinkTarget head)

include isPage isHead

theorem linkPage_slab {freeSlots : List Nat} (slab : SlabPage memory q d freeSlots) (served : d < firstHollow)
    (isPage' : PhysicalPage q) : SlabPage (linkPage memory p head) q d freeSlots := by
  have linked := slab.set_link (v := u32 head) served (.inr isPage) isPage' (.inl rfl)
  unfold linkPage
  dsimp only
  split
  · exact linked.set_link served isHead isPage' (.inr rfl)
  · exact linked

theorem nextSlab_linkPage (isPage' : PhysicalPage q) :
    nextSlab (linkPage memory p head) q = if q = p then u32 head else nextSlab memory q := by
  have linked : nextSlab (SlabHdr.set memory p .nextSlab (u32 head)) q =
      if q = p then u32 head else nextSlab memory q := by
    by_cases here : q = p
    · rw [if_pos here, here]
      exact (SlabHdr.get_set_self _ _ _ _).trans (u32_of_lt (u32_lt head))
    · rw [if_neg here]
      exact get_set_page (.inr isPage) isPage' fun equal => absurd equal here
  rw [← linked]
  unfold linkPage
  dsimp only
  split
  · exact get_set_page isHead isPage' fun _ => by decide
  · rfl

theorem prevSlab_linkPage (isPage' : PhysicalPage q) :
    prevSlab (linkPage memory p head) q = if q = head then u32 p else prevSlab memory q := by
  have linked : prevSlab (SlabHdr.set memory p .nextSlab (u32 head)) q = prevSlab memory q :=
    get_set_page (.inr isPage) isPage' fun _ => by decide
  unfold linkPage
  dsimp only
  split
  · by_cases here : q = head
    · rw [if_pos here, here]
      exact (SlabHdr.get_set_self _ _ _ _).trans (u32_of_lt (u32_lt p))
    · rw [if_neg here, ← linked]
      exact get_set_page isHead isPage' fun equal => absurd equal here
  · rename_i isZero
    have here : q ≠ head := fun equal => isPage'.ne_zero (equal.trans (not_not.mp isZero))
    rw [if_neg here, linked]

end LinkPage

/-- The head of a class is one of its pages. -/
theorem SlabInv.head_page (inv : SlabInv heap pages free) (isClass : c < slabNumClasses)
    (nonzero : heap.slabCache c ≠ 0) : heap.slabCache c ∈ pages c := by
  have chain := inv.chains c isClass
  generalize pages c = members at chain
  cases members with
  | nil => exact absurd chain nonzero
  | cons first members =>
      rw [chain.1]
      exact List.mem_cons_self

theorem mem_update_cons (different : q ≠ p) (member : q ∈ Function.update pages c (p :: pages c) d) :
    q ∈ pages d := by
  by_cases here : d = c
  · subst here
    rw [Function.update_self] at member
    exact (List.mem_cons.mp member).resolve_left different
  · rwa [Function.update_of_ne here] at member

/-- A fresh page becomes the head of its class. -/
theorem SlabInv.add_page (inv : SlabInv heap pages free) (isClass : c < slabNumClasses) (served : c < firstHollow)
    (physical : PhysicalPage p) (fresh : ∀ d < slabNumClasses, p ∉ pages d) (low : heap.slabCache c < 2 ^ 32) :
    SlabInv ⟨linkPage (slabPageInit heap.memory p c) p (heap.slabCache c), Function.update heap.slabCache c p⟩
      (Function.update pages c (p :: pages c))
      (Function.update free p (List.range (slotCount (slabSize c)))) := by
  have same := slabPageInit_sameOutside heap.memory p served
  have inv₁ := inv.elsewhere fun d isClass' q member =>
    same.sameOn ((inv.physical d isClass' q member).apart physical fun equal => fresh d isClass' (equal ▸ member))
  have page₁ := slabPageInit_page heap.memory p served
  have prev₁ : SlabHdr.get (slabPageInit heap.memory p c) p .prevSlab = 0 := get_slabPageInit _ _ _ served
  generalize slabPageInit heap.memory p c = memory₁ at inv₁ page₁ prev₁
  have isHead : LinkTarget (heap.slabCache c) := by
    by_cases isZero : heap.slabCache c = 0
    · exact .inl isZero
    · exact .inr (inv.physical c isClass _ (inv.head_page isClass isZero))
  have other : ∀ d < slabNumClasses, ∀ q ∈ pages d, q ≠ p := fun d isClass' q member equal =>
    fresh d isClass' (equal ▸ member)
  have notHead : p ≠ heap.slabCache c := fun equal =>
    fresh c isClass (equal ▸ inv.head_page isClass (equal ▸ physical.ne_zero))
  have chains : ∀ d < slabNumClasses,
      Chain (nextSlab (linkPage memory₁ p (heap.slabCache c))) 0 (heap.slabCache d) (pages d) := by
    intro d isClass'
    refine (inv₁.chains d isClass').congr fun q member => ?_
    rw [nextSlab_linkPage physical isHead (inv.physical d isClass' q member), if_neg (other d isClass' q member)]
  refine ⟨fun d isClass' => ?_, fun d isClass' => ?_, fun d isClass' q member => ?_, fun d isClass' q member => ?_,
    fun d isClass' q member => ?_, fun d isClass' => ?_⟩
  · by_cases here : d = c
    · subst here
      dsimp only
      rw [Function.update_self, Function.update_self]
      refine ⟨rfl, physical.ne_zero, ?_⟩
      rw [nextSlab_linkPage physical isHead physical, if_pos rfl, u32_of_lt low]
      exact chains d isClass'
    · dsimp only
      rw [Function.update_of_ne here, Function.update_of_ne here]
      exact chains d isClass'
  · have back := inv₁.back d isClass'
    have prev : ∀ q ∈ pages d, q ≠ heap.slabCache c →
        prevSlab (linkPage memory₁ p (heap.slabCache c)) q = prevSlab memory₁ q := fun q member notFirst => by
      rw [prevSlab_linkPage physical isHead (inv.physical d isClass' q member), if_neg notFirst]
    by_cases here : d = c
    · subst here
      rw [Function.update_self]
      refine ⟨?_, ?_⟩
      · rw [prevSlab_linkPage physical isHead physical, if_neg notHead]
        exact prev₁
      · have chain := inv.chains d isClass'
        have distinct := inv.nodup d isClass'
        have isPhysical := inv.physical d isClass'
        generalize pages d = members at back prev chain distinct isPhysical
        cases members with
        | nil => trivial
        | cons first members =>
            have isFirst : first = heap.slabCache d := chain.1.symm
            have later := (List.nodup_cons.mp distinct).1
            refine ⟨?_, back.2.congr fun q member => ?_⟩
            · rw [prevSlab_linkPage physical isHead (isPhysical first List.mem_cons_self), if_pos isFirst]
            · exact prev q (List.mem_cons_of_mem _ member) fun equal => later (isFirst ▸ equal ▸ member)
    · rw [Function.update_of_ne here]
      refine back.congr fun q member => prev q member ?_
      rintro rfl
      have isPage := inv.head_page isClass (inv.physical d isClass' _ member).ne_zero
      exact here (inv.class_unique isClass' isClass member isPage)
  · dsimp only
    by_cases isNew : q = p
    · subst isNew
      have here : d = c := by
        by_contra different
        rw [Function.update_of_ne different] at member
        exact fresh d isClass' member
      subst here
      rw [Function.update_self]
      exact linkPage_slab physical isHead page₁ served physical
    · have old := mem_update_cons isNew member
      rw [Function.update_of_ne isNew]
      exact linkPage_slab physical isHead (inv₁.page d isClass' q old) (inv.served d isClass' q old)
        (inv.physical d isClass' q old)
  · by_cases isNew : q = p
    · subst isNew
      have here : d = c := by
        by_contra different
        rw [Function.update_of_ne different] at member
        exact fresh d isClass' member
      exact here ▸ served
    · exact inv.served d isClass' q (mem_update_cons isNew member)
  · by_cases isNew : q = p
    · exact isNew ▸ physical
    · exact inv.physical d isClass' q (mem_update_cons isNew member)
  · by_cases here : d = c
    · subst here
      rw [Function.update_self]
      exact List.nodup_cons.mpr ⟨fresh d isClass', inv.nodup d isClass'⟩
    · rw [Function.update_of_ne here]
      exact inv.nodup d isClass'

/-- The page behind another one, or nothing. -/
theorem SlabInv.next_target {front rest : List Nat} (inv : SlabInv heap pages free) (isClass : c < slabNumClasses)
    (split : pages c = front ++ p :: rest) :
    nextSlab heap.memory p = rest.headD 0 ∧ LinkTarget (nextSlab heap.memory p) := by
  have chain := inv.chains c isClass
  have physical := inv.physical c isClass
  rw [split] at chain physical
  have head := chain.behind.head_eq
  refine ⟨head, ?_⟩
  rw [head]
  cases rest with
  | nil => exact .inl rfl
  | cons q rest => exact .inr (physical q (by simp))

theorem LinkTarget.ne_slabNil (target : LinkTarget p) : p ≠ slabNil := by
  rcases target with rfl | isPage
  · decide
  · intro equal
    have aligned := isPage.aligned
    rw [equal] at aligned
    exact absurd aligned (by decide)

/-- `slab_free` takes a page out of its class whose predecessor has an address of 32 bits. -/
theorem unlinkPage_eq {front rest : List Nat} {before : Nat} (inv : SlabInv heap pages free)
    (isClass : c < slabNumClasses) (split : pages c = front ++ before :: p :: rest) (low : before < 2 ^ 32) :
    unlinkPage heap c p = ⟨SlabHdr.set (SlabHdr.set heap.memory before .nextSlab (nextSlab heap.memory p))
      (nextSlab heap.memory p) .prevSlab before, heap.slabCache⟩ := by
  have prev : SlabHdr.get heap.memory p .prevSlab = before := by
    have back := inv.back c isClass
    rw [split] at back
    exact back.prev_eq.trans (u32_of_lt low)
  have behind : pages c = (front ++ [before]) ++ p :: rest := by rw [split]; simp
  have target := (inv.next_target isClass behind).2
  have physical := inv.physical c isClass
  have distinct := inv.nodup c isClass
  rw [split] at physical distinct
  have isBefore : PhysicalPage before := physical before (by simp)
  have isPage : PhysicalPage p := physical p (by simp)
  have different : p ≠ before := by
    rintro rfl
    have ends := (List.nodup_append.mp distinct).2.1
    exact (List.nodup_cons.mp ends).1 List.mem_cons_self
  have next : ∀ v, SlabHdr.get (SlabHdr.set heap.memory before .nextSlab v) p .nextSlab =
      nextSlab heap.memory p := fun v =>
    get_set_page (.inr isBefore) isPage fun equal => absurd equal different
  have prevKept : ∀ v, SlabHdr.get (SlabHdr.set heap.memory before .nextSlab v) p .prevSlab = before := fun v =>
    (get_set_page (.inr isBefore) isPage fun _ => by decide).trans prev
  unfold unlinkPage
  dsimp only
  rw [prev, if_pos (LinkTarget.ne_slabNil (.inr isBefore))]
  dsimp only
  rw [next, prevKept, if_pos target.ne_slabNil]
  rfl

/-- A page that is not the first of its class is taken out of it and poisoned. -/
theorem SlabInv.reap {front rest : List Nat} {before : Nat} (inv : SlabInv heap pages free)
    (isClass : c < slabNumClasses) (split : pages c = front ++ before :: p :: rest) (low : before < 2 ^ 32) :
    SlabInv ⟨fill (unlinkPage heap c p).memory p pageSize 0xAA, (unlinkPage heap c p).slabCache⟩
      (Function.update pages c (front ++ before :: rest)) free := by
  have behind : pages c = (front ++ [before]) ++ p :: rest := by rw [split]; simp
  obtain ⟨nextEq, target⟩ := inv.next_target isClass behind
  have distinct := inv.nodup c isClass
  rw [split] at distinct
  have isBefore : PhysicalPage before := inv.physical c isClass before (by rw [split]; simp)
  have shorter : (front ++ before :: rest).Sublist (front ++ before :: p :: rest) :=
    List.Sublist.append_left ((List.sublist_cons_self p rest).cons_cons before) front
  have gone : p ∉ front ++ before :: rest := by
    have moved : (front ++ [before] ++ p :: rest).Nodup := by simpa using distinct
    have apart := (List.nodup_cons.mp (List.nodup_middle.mp moved)).1
    simpa using apart
  have nextPage : nextSlab heap.memory p ≠ 0 → nextSlab heap.memory p ∈ pages c := by
    rw [nextEq, split]
    cases rest with
    | nil => exact fun nonzero => absurd rfl nonzero
    | cons first rest => exact fun _ => by simp
  have nextGone : nextSlab heap.memory p ∉ front ++ before :: rest.tail := by
    rw [nextEq]
    cases rest with
    | nil =>
        intro member
        refine (inv.physical c isClass 0 ?_).ne_zero rfl
        rw [split]
        exact shorter.subset member
    | cons first rest =>
        have moved : (front ++ [before] ++ first :: rest).Nodup := by simpa using distinct.sublist shorter
        have apart := (List.nodup_cons.mp (List.nodup_middle.mp moved)).1
        simpa using apart
  have notBefore : before ∉ front ++ p :: rest := (List.nodup_cons.mp (List.nodup_middle.mp distinct)).1
  have isPage : p ∈ pages c := by rw [split]; simp
  have kept : ∀ d < slabNumClasses, ∀ q ∈ Function.update pages c (front ++ before :: rest) d,
      q ∈ pages d ∧ q ≠ p := by
    intro d isClass' q member
    by_cases here : d = c
    · subst here
      rw [Function.update_self] at member
      rw [split]
      exact ⟨shorter.subset member, fun equal => gone (equal ▸ member)⟩
    · rw [Function.update_of_ne here] at member
      refine ⟨member, ?_⟩
      rintro rfl
      exact here (inv.class_unique isClass' isClass member isPage)
  rw [unlinkPage_eq inv isClass split low]
  dsimp only
  generalize memory₂Eq : SlabHdr.set (SlabHdr.set heap.memory before .nextSlab (nextSlab heap.memory p))
    (nextSlab heap.memory p) .prevSlab before = memory₂
  have next : ∀ q, PhysicalPage q → nextSlab memory₂ q =
      if q = before then nextSlab heap.memory p else nextSlab heap.memory q := by
    intro q isPhysical
    rw [← memory₂Eq]
    refine (get_set_page target isPhysical fun _ => by decide).trans ?_
    by_cases here : q = before
    · rw [if_pos here, here]
      exact (SlabHdr.get_set_self _ _ _ _).trans (u32_of_lt (SlabHdr.get_lt _ _ _))
    · rw [if_neg here]
      exact get_set_page (.inr isBefore) isPhysical fun equal => absurd equal here
  have prev : ∀ q, PhysicalPage q → prevSlab memory₂ q =
      if q = nextSlab heap.memory p then u32 before else prevSlab heap.memory q := by
    intro q isPhysical
    rw [← memory₂Eq]
    by_cases here : q = nextSlab heap.memory p
    · rw [if_pos here, here]
      exact SlabHdr.get_set_self _ _ _ _
    · rw [if_neg here]
      refine (get_set_page target isPhysical fun equal => absurd equal here).trans ?_
      exact get_set_page (.inr isBefore) isPhysical fun _ => by decide
  have unlinked : SlabInv ⟨memory₂, heap.slabCache⟩ (Function.update pages c (front ++ before :: rest)) free := by
    refine ⟨fun d isClass' => ?_, fun d isClass' => ?_, fun d isClass' q member => ?_,
      fun d isClass' q member => inv.served d isClass' q (kept d isClass' q member).1,
      fun d isClass' q member => inv.physical d isClass' q (kept d isClass' q member).1, fun d isClass' => ?_⟩
    · have others : ∀ q ∈ pages d, q ≠ before → nextSlab memory₂ q = nextSlab heap.memory q :=
        fun q member different => by rw [next q (inv.physical d isClass' q member), if_neg different]
      have chain := inv.chains d isClass'
      by_cases here : d = c
      · subst here
        rw [Function.update_self]
        rw [split] at chain others
        refine chain.unlink ?_ fun q member => ?_
        · rw [next before isBefore, if_pos rfl]
        · have inside : q ∈ front ++ before :: p :: rest := by
            rcases List.mem_append.mp member with first | last
            · exact List.mem_append_left _ first
            · exact List.mem_append_right _ (List.mem_cons_of_mem _ (List.mem_cons_of_mem _ last))
          refine others q inside ?_
          rintro rfl
          refine notBefore (List.mem_append.mpr ((List.mem_append.mp member).imp_right ?_))
          exact List.mem_cons_of_mem _
      · rw [Function.update_of_ne here]
        refine chain.congr fun q member => others q member ?_
        rintro rfl
        exact here (inv.class_unique isClass' isClass member (by rw [split]; simp))
    · have others : ∀ q ∈ pages d, q ≠ nextSlab heap.memory p → prevSlab memory₂ q = prevSlab heap.memory q :=
        fun q member different => by rw [prev q (inv.physical d isClass' q member), if_neg different]
      have back := inv.back d isClass'
      by_cases here : d = c
      · subst here
        rw [Function.update_self]
        have physical := inv.physical d isClass'
        rw [split] at back others physical
        have prevPage : prevSlab heap.memory p = u32 before := back.prev_eq
        refine back.unlink ?_ fun q member => ?_
        · intro q isHead
          have isNext : q = nextSlab heap.memory p := by
            rw [nextEq]
            cases rest with
            | nil => cases isHead
            | cons first rest => exact (Option.some.inj isHead).symm
          have member : q ∈ front ++ before :: p :: rest := by
            have isRest := List.mem_of_mem_head? isHead
            simp [isRest]
          rw [prev q (physical q member), if_pos isNext, prevPage]
        · have member' : q ∈ front ++ before :: p :: rest := by
            rcases List.mem_append.mp member with first | last
            · exact List.mem_append_left _ first
            · rcases List.mem_cons.mp last with rfl | last
              · simp
              · have isRest := List.mem_of_mem_tail last
                simp [isRest]
          refine others q member' ?_
          rintro rfl
          exact nextGone member
      · rw [Function.update_of_ne here]
        refine back.congr fun q member => others q member ?_
        rintro rfl
        have nonzero := (inv.physical d isClass' _ member).ne_zero
        exact here (inv.class_unique isClass' isClass member (nextPage nonzero))
    · have old := (kept d isClass' q member).1
      have served := inv.served d isClass' q old
      have isPhysical := inv.physical d isClass' q old
      rw [← memory₂Eq]
      exact ((inv.page d isClass' q old).set_link served (.inr isBefore) isPhysical (.inl rfl)).set_link served target
        isPhysical (.inr rfl)
    · by_cases here : d = c
      · subst here
        rw [Function.update_self]
        exact distinct.sublist shorter
      · rw [Function.update_of_ne here]
        exact inv.nodup d isClass'
  have poisoned := fill_sameOutside memory₂ p pageSize 0xAA
  refine unlinked.elsewhere fun d isClass' q member => poisoned.sameOn ?_
  obtain ⟨old, different⟩ := kept d isClass' q member
  exact inv.apart isClass isClass' isPage old different

end Links

end Systrix.HeapEnhanced
