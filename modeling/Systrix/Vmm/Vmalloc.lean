import Systrix.Lib.FreeRun
import Systrix.Lib.Run
import Systrix.Vmm.PageTable

/-!
# Kernel virtual memory

The allocator of `kernel/vmalloc.c`: a range of 256 MB of kernel addresses, a bitmap of its
pages, and frames of the physical memory manager mapped one by one.
-/

namespace Systrix.Vmm

def vmallocBase : Word := 0xFFFF800000000000

def vmallocSize : Word := 256 * 1024 * 1024

def vmallocMaxAlloc : Word := vmallocSize / 2

def vmallocPages : Nat := 65536

def vmallocMaxTracked : Nat := 256

/-- `VmallocEntry` -/
structure VmallocEntry where
  virt : Word
  pages : Word
  caller : Word
  tag : List (BitVec 8)

/-- The static state of `vmalloc.c`, memory, and the root of the kernel's tables. -/
structure Vmalloc where
  vm : Vm
  cr3 : Word
  vmalloc_bitmap : Nat → BitVec 8
  vmalloc_allocated_pages : Word
  vmalloc_peak_pages : Word
  vmalloc_total_allocs : Word
  vmalloc_total_frees : Word
  /-- The entries of `vmalloc_tracking` below `vmalloc_track_count`. -/
  vmalloc_tracking : List VmallocEntry
  /-- The pages `pmm_alloc` has returned to the calls, the last one first. -/
  taken : List Word

/-- What `pmm_alloc` returns in one turn of the loop of `vmalloc`: the frame, 0 when it fails, and
the pages for new tables, after which it fails. -/
structure Answer where
  frame : Word
  tables : List Word

namespace Vmalloc

variable (s : Vmalloc)

/-! ## The bitmap -/

def vmBtest (page : Nat) : Bool := (s.vmalloc_bitmap (page / 8)).getLsbD (page % 8)

def vmBset (page : Nat) : Vmalloc :=
  let byte := s.vmalloc_bitmap (page / 8) ||| BitVec.twoPow 8 (page % 8)
  { s with vmalloc_bitmap := Function.update s.vmalloc_bitmap (page / 8) byte }

def vmBclr (page : Nat) : Vmalloc :=
  let byte := s.vmalloc_bitmap (page / 8) &&& ~~~ BitVec.twoPow 8 (page % 8)
  { s with vmalloc_bitmap := Function.update s.vmalloc_bitmap (page / 8) byte }

/-- `vm_find_free_pages`; 0 when there is no run that is long enough. -/
def vmFindFreePages (count : Nat) : Nat :=
  if count = 0 ∨ vmallocPages < count then 0
  else (FreeRun.scan s.vmBtest count vmallocPages 0 0 0).getD 0

/-- The loops of `vfree` and `vrealloc` that count the used pages from a page on, with the number of
pages that are left. -/
def countUsed : Nat → Nat → Nat
  | 0, _ => 0
  | places + 1, page => if s.vmBtest page then countUsed places (page + 1) + 1 else 0

/-! ## Tracking -/

def vmTrack (virt pages : Word) (tag : Option (List (BitVec 8))) : Vmalloc :=
  if vmallocMaxTracked ≤ s.vmalloc_tracking.length then s
  else { s with vmalloc_tracking := s.vmalloc_tracking ++ [⟨virt, pages, 0, (tag.getD []).take 15⟩] }

/-- The loop of `vm_untrack`: the last entry takes the place of the one that goes. -/
def untrack (virt : Word) : List VmallocEntry → List VmallocEntry
  | [] => []
  | e :: rest =>
      if e.virt = virt then
        match rest.getLast? with
        | none => []
        | some last => last :: rest.dropLast
      else e :: untrack virt rest

def vmUntrack (virt : Word) : Vmalloc := { s with vmalloc_tracking := untrack virt s.vmalloc_tracking }

/-! ## Pages -/

/-- The address of a page of the range. -/
def pageVirt (page : Nat) : Word := vmallocBase + BitVec.ofNat 64 page * 0x1000

/-- One turn of the loop of `vmalloc`: a frame, zeroed and mapped. -/
def mapFrame (virt : Word) (answer : Answer) : Vmalloc :=
  let vm := s.vm.setPage answer.frame fun _ => 0
  let mapped := vmmMap { vm with supply := answer.tables } s.cr3 virt answer.frame (ptePresent ||| pteWrite)
  { s with
    vm := mapped
    taken := (answer.tables.take (answer.tables.length - mapped.supply.length)).reverse ++ answer.frame :: s.taken }

/-- One turn of the loop that undoes the mappings: the page is unmapped, then looked up. -/
def rollbackPage (virt : Word) : Vmalloc :=
  let vm := vmmUnmap s.vm s.cr3 virt
  let old_phys := vmmVirtToPhys vm s.cr3 virt
  { s with vm := if old_phys ≠ 0 then pmmFree vm old_phys else vm }

/-- The loop of `vmalloc` from page `i` of the region on, `left` pages before its end, and whether it
has come to the end. -/
def mapFrames (page : Nat) (s : Vmalloc) (i : Nat) : Nat → List Answer → Bool × Vmalloc
  | 0, _ => (true, s)
  | _ + 1, [] => (false, (List.range i).foldl (fun s j => s.rollbackPage (pageVirt (page + j))) s)
  | left + 1, answer :: answers =>
      if answer.frame = 0 then
        (false, (List.range i).foldl (fun s j => s.rollbackPage (pageVirt (page + j))) s)
      else mapFrames page (s.mapFrame (pageVirt (page + i)) answer) (i + 1) left answers

/-- Mark the pages of a region. -/
def markPages (page pages : Nat) : Vmalloc := (List.range pages).foldl (fun s i => s.vmBset (page + i)) s

/-- The statistics of an allocation. -/
def countAlloc (pages : Word) : Vmalloc :=
  let allocated := s.vmalloc_allocated_pages + pages
  { s with
    vmalloc_allocated_pages := allocated
    vmalloc_peak_pages := if s.vmalloc_peak_pages < allocated then allocated else s.vmalloc_peak_pages
    vmalloc_total_allocs := s.vmalloc_total_allocs + 1 }

/-- The number of pages of a size. -/
def sizePages (size : Word) : Word := (size + 0x1000 - 1) / 0x1000

/-- `vmalloc`; 0 when it fails. -/
def vmalloc (answers : List Answer) (size : Word) (tag : Option (List (BitVec 8))) : Word × Vmalloc :=
  if size = 0 ∨ vmallocMaxAlloc < size then (0, s)
  else
    let pages := sizePages size
    let page_idx := s.vmFindFreePages pages.toNat
    if page_idx = 0 then (0, s)
    else
      let mapped := mapFrames page_idx s 0 pages.toNat answers
      if mapped.1 then
        (pageVirt page_idx,
          ((mapped.2.markPages page_idx pages.toNat).countAlloc pages).vmTrack (pageVirt page_idx) pages tag)
      else (0, mapped.2)

/-- The test that an address is in the range. -/
def inRange (virt : Word) : Bool := vmallocBase ≤ virt && virt < vmallocBase + vmallocSize

/-- The page of an address of the range. -/
def pageIdx (virt : Word) : Nat := ((virt - vmallocBase) / 0x1000).toNat

/-- One turn of the loop of `vfree`: the frame at `virt` is freed, and page `page` is cleared. -/
def freePage (virt : Word) (page : Nat) : Vmalloc :=
  let phys := vmmVirtToPhys s.vm s.cr3 virt
  let vm := vmmUnmap s.vm s.cr3 virt
  { s with vm := if phys ≠ 0 then pmmFree vm phys else vm }.vmBclr page

def vfree (virt : Word) : Vmalloc :=
  if virt = 0 ∨ !inRange virt then s
  else
    let page_idx := pageIdx virt
    let pages := s.countUsed (vmallocPages - page_idx) page_idx
    if pages = 0 then s
    else
      let freed := (List.range pages).foldl
        (fun s i => s.freePage (virt + BitVec.ofNat 64 i * 0x1000) (page_idx + i)) s
      { freed with
        vmalloc_allocated_pages := freed.vmalloc_allocated_pages - BitVec.ofNat 64 pages
        vmalloc_total_frees := freed.vmalloc_total_frees + 1 }.vmUntrack virt

/-- One page of the `memcpy` of `vrealloc`, between two addresses that are mapped. -/
def copyPage (dst src : Word) : Vmalloc :=
  match walk s.vm.mem s.cr3 dst, walk s.vm.mem s.cr3 src with
  | some target, some source => { s with vm := s.vm.setPage target.frame (s.vm.mem source.frame) }
  | _, _ => s

def vrealloc (answers : List Answer) (old new_size : Word) (tag : Option (List (BitVec 8))) : Word × Vmalloc :=
  if old = 0 then s.vmalloc answers new_size tag
  else if new_size = 0 then (0, s.vfree old)
  else if !inRange old then (0, s)
  else
    let page_idx := pageIdx old
    let old_pages := s.countUsed (vmallocPages - page_idx) page_idx
    if (sizePages new_size).toNat ≤ old_pages then (old, s)
    else
      let result := s.vmalloc answers new_size tag
      if result.1 = 0 then result
      else
        let copied := (List.range old_pages).foldl
          (fun s i => s.copyPage (result.1 + BitVec.ofNat 64 i * 0x1000) (old + BitVec.ofNat 64 i * 0x1000))
          result.2
        (result.1, copied.vfree old)

/-- The state after `vmalloc_init`. -/
def vmallocInit (vm : Vm) (cr3 : Word) : Vmalloc := ⟨vm, cr3, fun _ => 0, 0, 0, 0, 0, [], []⟩

/-! ## What the search finds -/

/-- Some pages that follow each other, in the range and not in use. -/
def FreePages (page count : Nat) : Prop := page + count ≤ vmallocPages ∧ FreeRun.IsFree s.vmBtest page count

/-- `vm_find_free_pages` returns the first run that is long enough, and page 0 also when there is none. -/
theorem vmFindFreePages_spec {count : Nat} (positive : 0 < count) (fits : count ≤ vmallocPages) :
    (s.FreePages (s.vmFindFreePages count) count ∧
        ∀ page, s.FreePages page count → s.vmFindFreePages count ≤ page) ∨
      s.vmFindFreePages count = 0 ∧ ∀ page, ¬ s.FreePages page count := by
  have spec := (@FreeRun.scanned_start s.vmBtest count 0 positive).scan vmallocPages
  have valid : ¬(count = 0 ∨ vmallocPages < count) := by omega
  rw [vmFindFreePages, if_neg valid]
  cases found : FreeRun.scan s.vmBtest count vmallocPages 0 0 0 with
  | some first =>
      simp only [found, Nat.zero_add] at spec
      obtain ⟨free, inside, least⟩ := spec
      exact Or.inl ⟨⟨inside, free⟩, fun page other => least page other.2⟩
  | none =>
      simp only [found, Nat.zero_add] at spec
      exact Or.inr ⟨rfl, fun page free => spec page free.1 free.2⟩

/-- A run that begins at page 0 looks like no run at all. -/
theorem vmFindFreePages_eq_zero_iff {count : Nat} (positive : 0 < count) (fits : count ≤ vmallocPages) :
    s.vmFindFreePages count = 0 ↔ s.FreePages 0 count ∨ ∀ page, ¬ s.FreePages page count := by
  rcases s.vmFindFreePages_spec positive fits with ⟨free, least⟩ | ⟨zero, none⟩
  · constructor
    · intro zero
      exact Or.inl (zero ▸ free)
    · rintro (atZero | none)
      · exact Nat.le_zero.mp (least 0 atZero)
      · exact absurd free (none _)
  · exact iff_of_true zero (Or.inr none)

end Vmalloc

end Systrix.Vmm

/-!
## Runs of the kernel virtual memory allocator

What `vmalloc`, `vrealloc` and `vfree` owe the regions they hand out, over whole runs.
-/

namespace Systrix.Vmm

/-- A region `vmalloc` has handed out: its first page, and the frames its pages were mapped to. -/
structure Region where
  page : Nat
  frames : List Word

namespace Region

/-- The address of a region. -/
def virt (r : Region) : Word := Vmalloc.pageVirt r.page

/-- A page belongs to a region. -/
def Has (r : Region) (page : Nat) : Prop := r.page ≤ page ∧ page < r.page + r.frames.length

/-- No page belongs to both. -/
def Disjoint (r r' : Region) : Prop := ∀ page, ¬(r.Has page ∧ r'.Has page)

end Region

/-- The frame a page of the range is mapped to. -/
def Vmalloc.frameAt (s : Vmalloc) (page : Nat) : Option Word :=
  (walk s.vm.mem s.cr3 (pageVirt page)).map Mapping.frame

/-- The region of a size that was just handed out. -/
def Vmalloc.region (s : Vmalloc) (virt size : Word) : Region where
  page := pageIdx virt
  frames := (List.range (sizePages size).toNat).map fun i => (s.frameAt (pageIdx virt + i)).getD 0

/-- The allocator and the regions in use. -/
structure VmallocRun where
  s : Vmalloc
  live : List Region

/-- The calls. -/
inductive VmallocCall where
  | vmalloc (answers : List Answer) (size : Word) (tag : Option (List (BitVec 8)))
  | vfree (virt : Word)
  | vrealloc (answers : List Answer) (old new_size : Word) (tag : Option (List (BitVec 8)))

namespace VmallocRun

variable (h : VmallocRun)

/-- The regions in use without the one at an address. -/
def without (virt : Word) : List Region := h.live.filter fun r => r.virt ≠ virt

/-- The regions in use after `vmalloc` has returned `result`. -/
def hand (result : Word × Vmalloc) (size : Word) (kept : List Region) : List Region :=
  if result.1 = 0 then h.live else result.2.region result.1 size :: kept

/-- One call. -/
def step : VmallocCall → VmallocRun
  | .vmalloc answers size tag =>
      let result := h.s.vmalloc answers size tag
      ⟨result.2, h.hand result size h.live⟩
  | .vfree virt => ⟨h.s.vfree virt, h.without virt⟩
  | .vrealloc answers old new_size tag =>
      let result := h.s.vrealloc answers old new_size tag
      if old ≠ 0 ∧ new_size = 0 then ⟨result.2, h.without old⟩
      else if old ≠ 0 ∧ result.1 = old then ⟨result.2, h.live⟩
      else ⟨result.2, h.hand result new_size (h.without old)⟩

/-- A pointer a caller may pass: NULL, or that of a region in use. -/
def Pointer (virt : Word) : Prop := virt = 0 ∨ ∃ r ∈ h.live, r.virt = virt

/-- What the callers promise. -/
def Allowed : VmallocCall → Prop
  | .vmalloc _ size _ => size ≤ vmallocMaxAlloc
  | .vfree virt => h.Pointer virt
  | .vrealloc _ old new_size _ => h.Pointer old ∧ new_size ≤ vmallocMaxAlloc

/-- There is a frame for every page of a size. -/
def FramesSuffice (answers : List Answer) (size : Word) : Prop :=
  ∀ i, i < (Vmalloc.sizePages size).toNat → ∃ answer, answers[i]? = some answer ∧ answer.frame ≠ 0

/-- A failed allocation leaves the bitmap, the mappings and the free frames as they were. -/
def Unchanged (s' : Vmalloc) : Prop :=
  s'.vmalloc_bitmap = h.s.vmalloc_bitmap ∧ (∀ virt, walk s'.vm.mem s'.cr3 virt = walk h.s.vm.mem h.s.cr3 virt) ∧
    ∃ taken back, s'.taken = taken ++ h.s.taken ∧ s'.vm.freed = back ++ h.s.vm.freed ∧ taken.Perm back

/-- What a request for memory that returns `result` owes its caller when it fails: there was no free run or
no frame, and nothing has changed. -/
def Fails (answers : List Answer) (size : Word) (result : Word × Vmalloc) : Prop :=
  result.1 = 0 → h.Unchanged result.2 ∧
    (size ≠ 0 → (∀ page, ¬ h.s.FreePages page (Vmalloc.sizePages size).toNat) ∨ ¬ FramesSuffice answers size)

/-- The pages of one region are unmapped and its frames freed, and no others. -/
def Freed (s' : Vmalloc) (r : Region) : Prop :=
  (∀ page, page < vmallocPages → r.Has page → s'.frameAt page = none) ∧
    (∀ page, page < vmallocPages → ¬ r.Has page → s'.frameAt page = h.s.frameAt page) ∧
    ∃ back, s'.vm.freed = back ++ h.s.vm.freed ∧ back.Perm r.frames

/-- The bytes of a region are the first of the region at `virt`, and its pages are free again. -/
def Moved (s' : Vmalloc) (r : Region) (virt : Word) : Prop :=
  (∀ i, i < r.frames.length → ∃ source target, h.s.frameAt (r.page + i) = some source ∧
      s'.frameAt (Vmalloc.pageIdx virt + i) = some target ∧ s'.vm.mem target = h.s.vm.mem source) ∧
    (∀ page, page < vmallocPages → r.Has page → s'.frameAt page = none) ∧
    ∃ back, s'.vm.freed = back ++ h.s.vm.freed ∧ back.Perm r.frames

/-- What a call does for its caller. -/
def Serves : VmallocCall → Prop
  | .vmalloc answers size tag => h.Fails answers size (h.s.vmalloc answers size tag)
  | .vfree virt => ∀ r ∈ h.live, r.virt = virt → h.Freed (h.s.vfree virt) r
  | .vrealloc answers old new_size tag =>
      let result := h.s.vrealloc answers old new_size tag
      (old = 0 → h.Fails answers new_size result) ∧
        ∀ r ∈ h.live, r.virt = old →
          if new_size = 0 then h.Freed result.2 r
          else h.Fails answers new_size result ∧ (result.1 ≠ 0 → result.1 ≠ old → h.Moved result.2 r result.1)

/-- The regions in use are disjoint, and the pages of each are mapped to its frames. -/
def Kept : Prop :=
  h.live.Pairwise Region.Disjoint ∧
    ∀ r ∈ h.live, ∀ i (inside : i < r.frames.length), h.s.frameAt (r.page + i) = some r.frames[i]

/-- The allocator accounts for a call: it serves the caller, and the regions in use are kept. -/
def Accounts (call : VmallocCall) : Prop := h.Serves call ∧ (h.step call).Kept

end VmallocRun

/-- The size a call asks a new region for. -/
def VmallocCall.request : VmallocCall → Option (List Answer × Word)
  | .vmalloc answers size _ => some (answers, size)
  | .vfree _ => none
  | .vrealloc answers old new_size _ => if old = 0 then some (answers, new_size) else none

/-- A call asks for memory while there are frames for it. -/
def VmallocCall.Supplied (call : VmallocCall) : Prop :=
  ∃ answers size, call.request = some (answers, size) ∧ size ≠ 0 ∧ VmallocRun.FramesSuffice answers size

namespace VmallocRun

/-- Nothing has been allocated. -/
structure Empty (h : VmallocRun) : Prop where
  bitmap : h.s.vmalloc_bitmap = fun _ => 0
  live : h.live = []

variable {h : VmallocRun}

theorem Empty.freePages (empty : h.Empty) {page count : Nat} (inside : page + count ≤ vmallocPages) :
    h.s.FreePages page count := by
  refine ⟨inside, fun k _ _ => ?_⟩
  rw [Vmalloc.vmBtest, empty.bitmap]
  exact BitVec.getLsbD_zero

/-- The number of pages of a valid size. -/
theorem sizePages_bounds {size : Word} (positive : size ≠ 0) (valid : size ≤ vmallocMaxAlloc) :
    0 < (Vmalloc.sizePages size).toNat ∧ (Vmalloc.sizePages size).toNat ≤ vmallocPages := by
  have positive' : size.toNat ≠ 0 := fun zero => positive (BitVec.eq_of_toNat_eq zero)
  have valid' : size.toNat ≤ 134217728 := valid
  have pages : (Vmalloc.sizePages size).toNat = (size.toNat + 4095) / 4096 := by
    have page : (0x1000 : Word).toNat = 4096 := rfl
    have one : (1 : Word).toNat = 1 := rfl
    simp only [Vmalloc.sizePages, BitVec.toNat_udiv, BitVec.toNat_sub, BitVec.toNat_add, page, one]
    omega
  rw [pages, vmallocPages]
  omega

/-- While page 0 is free every allocation fails, for page 0 is what the search returns when it fails. -/
theorem Empty.vmalloc (empty : h.Empty) (answers : List Answer) (size : Word) (tag : Option (List (BitVec 8))) :
    h.s.vmalloc answers size tag = (0, h.s) := by
  by_cases valid : size = 0 ∨ vmallocMaxAlloc < size
  · rw [Vmalloc.vmalloc, if_pos valid]
  · obtain ⟨positive, fits⟩ := sizePages_bounds (fun zero => valid (Or.inl zero))
      (BitVec.not_lt.mp fun large => valid (Or.inr large))
    have first : h.s.FreePages 0 (Vmalloc.sizePages size).toNat := empty.freePages (by omega)
    have failed := (h.s.vmFindFreePages_eq_zero_iff positive fits).mpr (Or.inl first)
    rw [Vmalloc.vmalloc, if_neg valid]
    exact if_pos failed

theorem Empty.pointer (empty : h.Empty) {virt : Word} : h.Pointer virt ↔ virt = 0 := by
  simp [Pointer, empty.live]

/-- A call does nothing while nothing is allocated. -/
theorem Empty.step (empty : h.Empty) {call : VmallocCall} (allowed : h.Allowed call) : h.step call = h := by
  have emptyLive := empty.live
  cases call with
  | vmalloc answers size tag =>
      rw [VmallocRun.step, empty.vmalloc]
      rfl
  | vfree virt =>
      have null : virt = 0 := empty.pointer.mp allowed
      rw [VmallocRun.step, Vmalloc.vfree, if_pos (Or.inl null), without, emptyLive]
      exact congrArg (VmallocRun.mk h.s) emptyLive.symm
  | vrealloc answers old new_size tag =>
      have null : old = 0 := empty.pointer.mp allowed.1
      have result : h.s.vrealloc answers old new_size tag = (0, h.s) := by
        rw [Vmalloc.vrealloc, if_pos null, empty.vmalloc]
      rw [VmallocRun.step, result]
      simp [null, hand]

theorem unchanged_refl (h : VmallocRun) : h.Unchanged h.s :=
  ⟨rfl, fun _ => rfl, [], [], rfl, rfl, List.Perm.nil⟩

/-- A request fails as it may exactly when frames are missing. -/
theorem Empty.fails_iff (empty : h.Empty) {answers : List Answer} {size : Word} (valid : size ≤ vmallocMaxAlloc) :
    h.Fails answers size (0, h.s) ↔ ¬(size ≠ 0 ∧ FramesSuffice answers size) := by
  constructor
  · intro fails ⟨positive, suffice⟩
    obtain ⟨-, fits⟩ := sizePages_bounds positive valid
    rcases (fails rfl).2 positive with noRun | noFrame
    · exact noRun 0 (empty.freePages (by omega))
    · exact noFrame suffice
  · intro missing _
    exact ⟨h.unchanged_refl, fun positive => Or.inr fun suffice => missing ⟨positive, suffice⟩⟩

theorem Empty.serves_iff (empty : h.Empty) {call : VmallocCall} (allowed : h.Allowed call) :
    h.Serves call ↔ ¬ call.Supplied := by
  cases call with
  | vmalloc answers size tag =>
      rw [Serves, empty.vmalloc, empty.fails_iff allowed]
      simp [VmallocCall.Supplied, VmallocCall.request]
  | vfree virt => simp [Serves, empty.live, VmallocCall.Supplied, VmallocCall.request]
  | vrealloc answers old new_size tag =>
      have null : old = 0 := empty.pointer.mp allowed.1
      have result : h.s.vrealloc answers old new_size tag = (0, h.s) := by
        rw [Vmalloc.vrealloc, if_pos null, empty.vmalloc]
      rw [Serves, result, empty.live]
      simp only [null, forall_const, List.not_mem_nil, false_implies, implies_true, and_true,
        empty.fails_iff allowed.2]
      simp [VmallocCall.Supplied, VmallocCall.request]

theorem Empty.kept (empty : h.Empty) : h.Kept := by simp [Kept, empty.live]

/-- The allocator accounts for a call while nothing is allocated unless frames were there for it. -/
theorem Empty.accounts_iff (empty : h.Empty) {call : VmallocCall} (allowed : h.Allowed call) :
    h.Accounts call ↔ ¬ call.Supplied := by
  rw [Accounts, empty.step allowed, empty.serves_iff allowed]
  exact and_iff_left empty.kept

/-- The allocator after `vmalloc_init`. -/
def start (vm : Vm) (cr3 : Word) : VmallocRun := ⟨Vmalloc.vmallocInit vm cr3, []⟩

theorem start_empty (vm : Vm) (cr3 : Word) : (start vm cr3).Empty := ⟨rfl, rfl⟩

/-- The allocator accounts for a run exactly when no request for memory in it comes while there are frames
for it. -/
theorem vmalloc_accounts_iff (vm : Vm) (cr3 : Word) (calls : List VmallocCall)
    (allowed : Run.Meets step Allowed (start vm cr3) calls) :
    Run.Meets step Accounts (start vm cr3) calls ↔
      Run.Meets step (fun _ call => ¬ call.Supplied) (start vm cr3) calls :=
  Run.meets_iff (fun _ _ empty allowed => empty.accounts_iff allowed)
    (fun _ _ empty allowed _ => by rw [empty.step allowed]; exact empty) (start_empty vm cr3) allowed

/-- Memory with nothing in it. -/
def bareVm : Vm := ⟨fun _ _ => 0, [], fun _ => 0, 0x4000000, [], fun _ => 0⟩

/-- A request while no frame is left, and calls with NULL. -/
def starvedCalls : List VmallocCall :=
  [.vmalloc [] 0x2000 none, .vfree 0, .vrealloc [⟨0x400000, []⟩] 0 0x1001 none]

theorem vmalloc_accounts_iff_starved :
    Run.Meets step Accounts (start bareVm 0x1000) starvedCalls ↔
      Run.Meets step (fun _ call => ¬ call.Supplied) (start bareVm 0x1000) starvedCalls :=
  vmalloc_accounts_iff bareVm 0x1000 starvedCalls
    ⟨(by decide : (0x2000 : Word) ≤ vmallocMaxAlloc), Or.inl rfl,
      ⟨Or.inl rfl, (by decide : (0x1001 : Word) ≤ vmallocMaxAlloc)⟩, trivial⟩

/-- The first byte that is asked for is refused, with a frame at hand and every page free. -/
theorem first_vmalloc_fails : ¬ ∀ vm cr3 calls, Run.Meets step Allowed (start vm cr3) calls →
    Run.Meets step Accounts (start vm cr3) calls := by
  intro every
  have allowed : (start bareVm 0x1000).Allowed (.vmalloc [⟨0x400000, []⟩] 1 none) :=
    (by decide : (1 : Word) ≤ vmallocMaxAlloc)
  have accounts := every bareVm 0x1000 [.vmalloc [⟨0x400000, []⟩] 1 none] ⟨allowed, trivial⟩
  have supplied : VmallocCall.Supplied (.vmalloc [⟨0x400000, []⟩] 1 none) := by
    refine ⟨[⟨0x400000, []⟩], 1, rfl, by decide, fun i first => ⟨⟨0x400000, []⟩, ?_, by decide⟩⟩
    have only : i = 0 := Nat.lt_one_iff.mp first
    rw [only]
    rfl
  exact ((start_empty bareVm 0x1000).accounts_iff allowed).mp accounts.1 supplied

end VmallocRun

end Systrix.Vmm
