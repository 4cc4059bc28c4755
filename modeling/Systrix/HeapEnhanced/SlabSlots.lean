import Systrix.HeapEnhanced.SlabCalls

/-!
# Slots of the enhanced slab tier

Which slots are in use, what the two calls change about it, and when they can: pages are only usable for
the classes whose slots fit, and two kinds of links do not survive a page being emptied.
-/

namespace Systrix.HeapEnhanced

open ByteMemory Machine LinkedList
open Heap (PhysicalPage)

/-! ## Slots -/

/-- Slot `j` of page `p` of class `c`. -/
def IsSlot (pages : Nat → List Nat) (c p j : Nat) : Prop :=
  c < slabNumClasses ∧ p ∈ pages c ∧ j < slotCount (slabSize c)

/-- The address of a slot that is not free. -/
def UsedSlot (pages free : Nat → List Nat) (ptr : Nat) : Prop :=
  ∃ c p j, IsSlot pages c p j ∧ j ∉ free p ∧ ptr = slotPtr p (slabSize c) j

section Slots

variable {heap : EnhancedHeap} {pages free : Nat → List Nat} {c d p q i j ptr : Nat}

theorem SlabInv.slot_page (inv : SlabInv heap pages free) (slot : IsSlot pages c p j) :
    pageBase (slotPtr p (slabSize c) j) = p := by
  have large := (slabSize_bounds (inv.served c slot.1 p slot.2.1)).1
  exact pageBase_slotPtr (inv.physical c slot.1 p slot.2.1).aligned slot.2.2 (by omega)

/-- A slot is determined by its address. -/
theorem SlabInv.slot_unique (inv : SlabInv heap pages free) (left : IsSlot pages c p j) (right : IsSlot pages d q i)
    (same : slotPtr p (slabSize c) j = slotPtr q (slabSize d) i) : c = d ∧ p = q ∧ j = i := by
  have samePage : p = q := by rw [← inv.slot_page left, same, inv.slot_page right]
  subst samePage
  obtain rfl := inv.class_unique left.1 right.1 left.2.1 right.2.1
  refine ⟨rfl, rfl, ?_⟩
  by_contra different
  have apart := slotPtr_apart p (slabSize c) different
  have large := (slabSize_bounds (inv.served c left.1 p left.2.1)).1
  omega

theorem SlabInv.used_iff (inv : SlabInv heap pages free) (slot : IsSlot pages c p j) :
    UsedSlot pages free (slotPtr p (slabSize c) j) ↔ j ∉ free p := by
  constructor
  · rintro ⟨d, q, i, slot', used, same⟩
    obtain ⟨rfl, rfl, rfl⟩ := inv.slot_unique slot slot' same
    exact used
  · exact fun used => ⟨c, p, j, slot, used, rfl⟩

/-- Exchanging the free list of one page changes the use of its slots only. -/
theorem used_update {slots : List Nat} (inv : SlabInv heap pages free) (isClass : c < slabNumClasses)
    (member : p ∈ pages c) (j : Nat) (others : ∀ i, i ≠ j → (i ∈ slots ↔ i ∈ free p))
    (different : ptr ≠ slotPtr p (slabSize c) j) :
    UsedSlot pages (Function.update free p slots) ptr ↔ UsedSlot pages free ptr := by
  refine exists_congr fun d => exists_congr fun q => exists_congr fun i => and_congr_right fun slot => ?_
  refine and_congr_left ?_
  rintro rfl
  by_cases here : q = p
  · subst here
    obtain rfl := inv.class_unique isClass slot.1 member slot.2.1
    have otherSlot : i ≠ j := fun equal => different (by rw [equal])
    rw [Function.update_self, others i otherSlot]
  · rw [Function.update_of_ne here]

/-- The slots of a fresh page are free. -/
theorem used_add {slots : List Nat} (fresh : ∀ d < slabNumClasses, p ∉ pages d)
    (all : ∀ j < slotCount (slabSize c), j ∈ slots) :
    UsedSlot (Function.update pages c (p :: pages c)) (Function.update free p slots) ptr ↔
      UsedSlot pages free ptr := by
  refine exists_congr fun d => exists_congr fun q => exists_congr fun i => ?_
  rw [← and_assoc, ← and_assoc]
  refine and_congr_left fun _ => ?_
  by_cases isNew : q = p
  · subst isNew
    refine iff_of_false ?_ fun used => fresh d used.1.1 used.1.2.1
    rintro ⟨⟨isClass, member, inside⟩, used⟩
    rw [Function.update_self] at used
    by_cases here : d = c
    · subst here
      exact used (all i inside)
    · rw [Function.update_of_ne here] at member
      exact fresh d isClass member
  · rw [Function.update_of_ne isNew]
    refine and_congr_left fun _ => ?_
    unfold IsSlot
    by_cases here : d = c
    · subst here
      rw [Function.update_self, List.mem_cons, or_iff_right isNew]
    · rw [Function.update_of_ne here]

/-- A page all of whose slots are free has none in use. -/
theorem used_drop {slots : List Nat} (others : ∀ q, q ∈ slots ↔ q ∈ pages c ∧ q ≠ p)
    (all : ∀ j < slotCount (slabSize c), j ∈ free p) :
    UsedSlot (Function.update pages c slots) free ptr ↔ UsedSlot pages free ptr := by
  refine exists_congr fun d => exists_congr fun q => exists_congr fun i => ?_
  rw [← and_assoc, ← and_assoc]
  refine and_congr_left fun _ => and_congr_left fun used => ?_
  unfold IsSlot
  by_cases here : d = c
  · subst here
    rw [Function.update_self, others q]
    refine and_congr_right fun _ => and_congr_left fun inside => and_iff_left ?_
    rintro rfl
    exact used (all i inside)
  · rw [Function.update_of_ne here]

end Slots

/-! ## Calls -/

section Calls

variable {heap : EnhancedHeap} {pages free : Nat → List Nat} {c p j page : Nat}

theorem findSlab_spec {memory : Memory} {head fuel : Nat} {members : List Nat}
    (chain : Chain (nextSlab memory) 0 head members)
    (counts : ∀ p ∈ members, SlabHdr.get memory p .freeCount = (free p).length) (enough : members.length < fuel) :
    (findSlab memory fuel head = some 0 ∧ ∀ p ∈ members, free p = []) ∨
      ∃ p ∈ members, findSlab memory fuel head = some p ∧ free p ≠ [] := by
  induction fuel generalizing head members with
  | zero => omega
  | succ fuel ih =>
      cases members with
      | nil =>
          have isNil : head = 0 := chain
          exact .inl ⟨by simp [findSlab, isNil], by simp⟩
      | cons p members =>
          obtain ⟨rfl, nonNil, tail⟩ := chain
          have count := counts head List.mem_cons_self
          rw [findSlab, if_neg nonNil]
          by_cases available : 0 < SlabHdr.get memory head .freeCount
          · rw [if_pos available]
            refine .inr ⟨head, List.mem_cons_self, rfl, fun empty => ?_⟩
            rw [count, empty] at available
            exact absurd available (by simp)
          · rw [if_neg available]
            have empty : free head = [] := List.eq_nil_of_length_eq_zero (by omega)
            have shorter : members.length < fuel := by simpa using enough
            rcases ih tail (fun q member => counts q (List.mem_cons_of_mem _ member)) shorter with
              ⟨found, rest⟩ | ⟨q, member, found, nonempty⟩
            · exact .inl ⟨found, List.forall_mem_cons.mpr ⟨empty, rest⟩⟩
            · exact .inr ⟨q, List.mem_cons_of_mem _ member, found, nonempty⟩

/-- A class has to ask for a new page: none of its pages has a free slot. -/
def NeedsPage (memory : Memory) (pages : Nat → List Nat) (c : Nat) : Prop :=
  ∀ p ∈ pages c, SlabHdr.get memory p .freeCount = 0

/-- What a call of `slab_alloc` leaves: one more slot is in use, and a page is new only when it was
needed. -/
structure Taken (heap heap' : EnhancedHeap) (pages pages' free free' : Nat → List Nat) (c page slot : Nat) : Prop where
  inv : SlabInv heap' pages' free'
  unused : ¬UsedSlot pages free slot
  exactly : ∀ ptr, UsedSlot pages' free' ptr ↔ ptr = slot ∨ UsedSlot pages free ptr
  grown : (pages' = pages ∧ heap'.slabCache = heap.slabCache) ∨
    (page ≠ 0 ∧ pages' = Function.update pages c (page :: pages c) ∧
      heap'.slabCache = Function.update heap.slabCache c page)

/-- A slot is taken of a page that has one. -/
theorem take_page {rest : List Nat} (inv : SlabInv heap pages free) (isClass : c < slabNumClasses)
    (member : p ∈ pages c) (available : free p = j :: rest) :
    ∃ memory', takeSlot heap.memory p (slabSize c) = (memory', slotPtr p (slabSize c) j) ∧
      SlabInv ⟨memory', heap.slabCache⟩ pages (Function.update free p rest) ∧
      ¬UsedSlot pages free (slotPtr p (slabSize c) j) ∧
      ∀ ptr, UsedSlot pages (Function.update free p rest) ptr ↔
        ptr = slotPtr p (slabSize c) j ∨ UsedSlot pages free ptr := by
  obtain ⟨memory', run, inv', -⟩ := takeSlot_spec inv isClass member available
  have isPage := inv.page c isClass p member
  rw [available] at isPage
  have slot : IsSlot pages c p j := ⟨isClass, member, isPage.bounded j List.mem_cons_self⟩
  have wasFree : ¬UsedSlot pages free (slotPtr p (slabSize c) j) := by
    rw [inv.used_iff slot, available]
    exact fun used => used List.mem_cons_self
  refine ⟨memory', run, inv', wasFree, fun ptr => ?_⟩
  by_cases here : ptr = slotPtr p (slabSize c) j
  · subst here
    refine iff_of_true ?_ (.inl rfl)
    rw [inv'.used_iff slot, Function.update_self]
    exact (List.nodup_cons.mp isPage.nodup).1
  · rw [or_iff_right here]
    refine used_update inv isClass member j (fun i different => ?_) here
    rw [available, List.mem_cons, or_iff_right different]

/-- `slab_alloc`, when a page that is needed has slots and the one it is linked before is below 4 GB. -/
theorem slabAlloc_spec (inv : SlabInv heap pages free) (isClass : c < slabNumClasses)
    (supply : page ≠ 0 → PhysicalPage page ∧ ∀ d < slabNumClasses, page ∉ pages d)
    (fits : page ≠ 0 → NeedsPage heap.memory pages c → c < firstHollow ∧ heap.slabCache c < 2 ^ 32) :
    slabAlloc heap page c = some (heap, 0) ∨
      ∃ heap' pages' free' slot, slabAlloc heap page c = some (heap', slot) ∧ slot ≠ 0 ∧
        Taken heap heap' pages pages' free free' c page slot := by
  have nonzero : ∀ p j, slotPtr p (slabSize c) j ≠ 0 := by
    intro p j
    unfold slotPtr slabHdrSz
    omega
  have enough : (pages c).length < slabFuel :=
    Nat.lt_succ_of_le (PhysicalPage.length_le (inv.physical c isClass) (inv.nodup c isClass))
  rcases findSlab_spec (inv.chains c isClass) (fun p member => (inv.page c isClass p member).freeCount_eq) enough with
    ⟨found, full⟩ | ⟨p, member, found, available⟩
  · by_cases noPage : page = 0
    · left
      unfold slabAlloc
      rw [found]
      exact if_pos noPage
    · right
      have needs : NeedsPage heap.memory pages c := fun p member => by
        rw [(inv.page c isClass p member).freeCount_eq, full p member]
        rfl
      obtain ⟨served, low⟩ := fits noPage needs
      obtain ⟨physical, fresh⟩ := supply noPage
      have added := inv.add_page isClass served physical fresh low
      obtain ⟨rest, restEq⟩ : ∃ rest, List.range (slotCount (slabSize c)) = 0 :: rest := by
        obtain ⟨n, count⟩ : ∃ n, slotCount (slabSize c) = n + 1 :=
          ⟨slotCount (slabSize c) - 1, by have some := (slotCount_bounds served).1; omega⟩
        rw [count, List.range_succ_eq_map]
        exact ⟨_, rfl⟩
      have member : page ∈ Function.update pages c (page :: pages c) c := by simp
      have available : Function.update free page (List.range (slotCount (slabSize c))) page = 0 :: rest := by
        rw [Function.update_self, restEq]
      obtain ⟨memory', run, inv', wasFree, exactly⟩ := take_page added isClass member available
      have same : ∀ ptr, UsedSlot (Function.update pages c (page :: pages c))
          (Function.update free page (List.range (slotCount (slabSize c)))) ptr ↔ UsedSlot pages free ptr :=
        fun ptr => used_add fresh fun j => List.mem_range.mpr
      refine ⟨_, _, _, _, ?_, nonzero page 0, inv', fun used => wasFree ((same _).mpr used), fun ptr => ?_,
        .inr ⟨noPage, rfl, rfl⟩⟩
      · unfold slabAlloc
        rw [found]
        dsimp only
        rw [if_neg noPage, run]
        rfl
      · rw [exactly ptr, same]
  · right
    obtain ⟨j, rest, shape⟩ := List.exists_cons_of_ne_nil available
    obtain ⟨memory', run, inv', wasFree, exactly⟩ := take_page inv isClass member shape
    refine ⟨_, _, _, _, ?_, nonzero p j, inv', wasFree, exactly, .inl ⟨rfl, rfl⟩⟩
    unfold slabAlloc
    rw [found]
    dsimp only
    split
    · rename_i impossible
      cases impossible
    · rename_i isZero
      exact absurd (Option.some.inj isZero) (inv.physical c isClass p member).ne_zero
    · rename_i phys isSome
      cases isSome
      rw [run]

/-- The page of a slot names its class. -/
theorem ptrInSlab_slot (inv : SlabInv heap pages free) (slot : IsSlot pages c p j) :
    ptrInSlab heap.memory (slotPtr p (slabSize c) j) = some c := by
  have isPage := inv.page c slot.1 p slot.2.1
  unfold ptrInSlab
  rw [inv.slot_page slot]
  cases found : (List.range slabNumClasses).find? fun c =>
      SlabHdr.get heap.memory p .objSize = slabSize c ∧ SlabHdr.get heap.memory p .classIdx = c with
  | none =>
      have none := List.find?_eq_none.mp found c (List.mem_range.mpr slot.1)
      exact absurd (decide_eq_true ⟨isPage.objSize_eq, isPage.classIdx_eq⟩) none
  | some d =>
      have same := List.find?_some found
      simp only [decide_eq_true_eq] at same
      rw [← same.2, isPage.classIdx_eq]

/-- The number of a slot is computed from its address. -/
theorem slotIdx_eq (inv : SlabInv heap pages free) (slot : IsSlot pages c p j) :
    u32 (sub64 (slotPtr p (slabSize c) j) (p + slabHdrSz)) / slabSize c = j := by
  have high := (inv.physical c slot.1 p slot.2.1).high
  have large := (slabSize_bounds (inv.served c slot.1 p slot.2.1)).1
  have bounds := slotPtr_bounds p slot.2.2
  have sizes : pageSize = 4096 ∧ ramEndMax = 2 ^ 36 := ⟨rfl, rfl⟩
  have offset : slotPtr p (slabSize c) j - (p + slabHdrSz) = j * slabSize c := by
    unfold slotPtr
    omega
  rw [sub64_of_le (by omega) (by omega), offset, u32_of_lt (by omega), Nat.mul_div_cancel _ (by omega)]

/-- The pages after one was given back. -/
def dropPage (pages : Nat → List Nat) : Option Nat → Nat → List Nat
  | none => pages
  | some p => fun c => if c < slabNumClasses then (pages c).erase p else pages c

/-- What a call of `slab_free` leaves: the slot is not in use, and a page that was given back is none of
the tier. -/
structure Given (heap' : EnhancedHeap) (pages pages' free free' : Nat → List Nat) (ptr : Nat)
    (freed : Option Nat) : Prop where
  inv : SlabInv heap' pages' free'
  exactly : ∀ q, UsedSlot pages' free' q ↔ UsedSlot pages free q ∧ q ≠ ptr
  dropped : pages' = dropPage pages freed
  gone : ∀ p, freed = some p → p = pageBase ptr ∧ ∀ c < slabNumClasses, p ∉ pages' c

/-- The page of a slot that was not free can be given back, should it be empty now: it is not the first of
several of its class, and its predecessor is below 4 GB. -/
def ReapFits (heap : EnhancedHeap) (pages : Nat → List Nat) (c p : Nat) : Prop :=
  (heap.slabCache c = p → nextSlab heap.memory p = 0) ∧ ∀ q ∈ pages c, nextSlab heap.memory q = p → q < 2 ^ 32

instance (heap : EnhancedHeap) (pages : Nat → List Nat) (c p : Nat) : Decidable (ReapFits heap pages c p) :=
  inferInstanceAs (Decidable (_ ∧ _))

/-- `slab_free` of a slot of the tier, also of one that is free. -/
theorem slabFree_spec (inv : SlabInv heap pages free) (slot : IsSlot pages c p j)
    (fits : j ∉ free p → (free p).length + 1 = slotCount (slabSize c) → ReapFits heap pages c p) :
    ∃ heap' pages' free' freed, slabFree heap (slotPtr p (slabSize c) j) c p = some (heap', freed) ∧
      Given heap' pages pages' free free' (slotPtr p (slabSize c) j) freed := by
  have isPage := inv.page c slot.1 p slot.2.1
  have served := inv.served c slot.1 p slot.2.1
  have enough : (free p).length < slotFuel := Nat.lt_of_le_of_lt isPage.length_le (slotCount_bounds served).2
  have listed : onFreeList heap.memory p (slabSize c) j slotFuel (SlabHdr.get heap.memory p .freeHead) =
      some (decide (j ∈ free p)) := onFreeList_eq isPage.chain enough
  unfold slabFree
  dsimp only
  rw [isPage.objSize_eq, slotIdx_eq inv slot, listed]
  by_cases isFree : j ∈ free p
  · rw [decide_eq_true isFree]
    refine ⟨heap, pages, free, none, rfl, inv, fun q => ?_, rfl, fun _ impossible => by cases impossible⟩
    refine ⟨fun used => ⟨used, ?_⟩, And.left⟩
    rintro rfl
    exact (inv.used_iff slot).mp used isFree
  · rw [decide_eq_false isFree]
    dsimp only
    obtain ⟨inv₁, -⟩ := returnSlot_spec inv slot.1 slot.2.1 slot.2.2 isFree
    have page₁ := inv₁.page c slot.1 p slot.2.1
    rw [Function.update_self] at page₁
    have exactly : ∀ q, UsedSlot pages (Function.update free p (j :: free p)) q ↔
        UsedSlot pages free q ∧ q ≠ slotPtr p (slabSize c) j := by
      intro q
      by_cases here : q = slotPtr p (slabSize c) j
      · subst here
        refine iff_of_false (fun used => ?_) fun used => used.2 rfl
        have notFree := (inv₁.used_iff slot).mp used
        rw [Function.update_self] at notFree
        exact notFree List.mem_cons_self
      · rw [and_iff_left here]
        refine used_update inv slot.1 slot.2.1 j (fun i different => ?_) here
        rw [List.mem_cons, or_iff_right different]
    generalize returnSlot heap.memory (slotPtr p (slabSize c) j) p j = memory₁ at inv₁ page₁
    split_ifs with reaps
    · obtain ⟨count, -, several⟩ := reaps
      rw [page₁.freeCount_eq, page₁.total_eq, List.length_cons] at count
      obtain ⟨first, low⟩ := fits isFree count
      obtain ⟨front, rest, split⟩ := List.append_of_mem slot.2.1
      have next := (inv.next_target slot.1 split).1
      have next₁ := (inv₁.next_target slot.1 split).1
      have notFirst : heap.slabCache c ≠ p := by
        intro isFirst
        rcases several with more | other
        · exact more (next₁.trans (next.symm.trans (first isFirst)))
        · exact other isFirst
      have chain := inv.chains c slot.1
      rcases List.eq_nil_or_concat front with rfl | ⟨front, before, rfl⟩
      · rw [split] at chain
        exact absurd chain.1 notFirst
      · have inner : pages c = front ++ before :: p :: rest := by simpa using split
        have link := (inv.next_target slot.1 inner).1
        have isBefore : before ∈ pages c := by rw [inner]; simp
        have reaped := inv₁.reap slot.1 inner (low before isBefore link)
        have distinct := inv.nodup c slot.1
        rw [split] at distinct
        have gone : p ∉ front.concat before ++ rest := (List.nodup_cons.mp (List.nodup_middle.mp distinct)).1
        have erased : (pages c).erase p = front ++ before :: rest := by
          rw [split, List.erase_append_right _ fun member => gone (List.mem_append_left _ member), List.erase_cons_head]
          simp
        have others : ∀ q, q ∈ front ++ before :: rest ↔ q ∈ pages c ∧ q ≠ p := fun q => by
          rw [← erased, (inv.nodup c slot.1).mem_erase_iff, and_comm]
        have all : ∀ i < slotCount (slabSize c), i ∈ Function.update free p (j :: free p) p := fun i inside => by
          rw [Function.update_self]
          exact slots_all page₁.bounded page₁.nodup count inside
        have notOther : ∀ d < slabNumClasses, d ≠ c → p ∉ pages d := fun d isClass different member =>
          different (inv.class_unique isClass slot.1 member slot.2.1)
        refine ⟨_, _, _, _, rfl, reaped, fun q => ?_, ?_, ?_⟩
        · rw [used_drop others all, exactly q]
        · funext d
          change _ = if d < slabNumClasses then (pages d).erase p else pages d
          by_cases here : d = c
          · rw [here, Function.update_self, if_pos slot.1, erased]
          · rw [Function.update_of_ne here]
            split_ifs with isClass
            · rw [List.erase_of_not_mem (notOther d isClass here)]
            · rfl
        · intro q isGone
          cases isGone
          refine ⟨(inv.slot_page slot).symm, fun d isClass member => ?_⟩
          by_cases here : d = c
          · subst here
            rw [Function.update_self] at member
            exact ((others p).mp member).2 rfl
          · rw [Function.update_of_ne here] at member
            exact notOther d isClass here member
    · exact ⟨_, _, _, _, rfl, inv₁, exactly, rfl, fun _ impossible => by cases impossible⟩

end Calls

end Systrix.HeapEnhanced
