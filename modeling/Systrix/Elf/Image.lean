import Systrix.Elf.Bounds
import Systrix.Vmm.Isolation

/-!
# The image of a program

What a process reads where `elf_load` put the segments of its file, page by page.
-/

namespace Systrix.Elf

open ByteMemory Machine Vmm

/-- The bytes that were last loaded into a page, by the address of the page. -/
abbrev Image := Nat → Option Memory

/-- The process reads the pages of an image.  A page that is not kept may be missing when
memory ran out. -/
structure Holds (cr3 : Word) (kept : Nat → Prop) (image : Image) (vm : Vm) : Prop where
  tree : Tree vm cr3
  ring3 : ∀ virt, (above vm.mem cr3 virt).ring3 = true
  aligned : ∀ page bytes, image page = some bytes → page % pageSize = 0 ∧ page < 2 ^ 48
  tables : ∀ page, kept page → HasTable vm cr3 (.ofNat 64 page)
  pages : ∀ page bytes, image page = some bytes →
    Mapped vm cr3 (.ofNat 64 page) bytes ∨ vm.supply = [] ∧ ¬ kept page

/-- An entry with flags refers to the page. -/
theorem frame_or_flags {phys flags : Word} (page : frame phys = phys) (noAddress : flags &&& ptePhysMask = 0) :
    frame (phys ||| flags) = phys := by
  have same : frame (phys ||| flags) = phys ||| 0 := by
    rw [frame, BitVec.and_or_distrib_right, noAddress]
    exact congrArg (· ||| 0) page
  exact same.trans BitVec.or_zero

section Page

variable {cr3 : Word} {kept : Nat → Prop} {image : Image} {s : Loading} {page : Nat} {bytes : Memory} {flags : Word}

/-- A page is loaded when there is a free one. -/
theorem loadPage_loaded (loaded : (loadPage cr3 page bytes flags s).1 = true) :
    ∃ p rest, s.vm.supply = p :: rest ∧ (loadPage cr3 page bytes flags s).2.vm =
      vmmMap (s.vm.filled p rest (pageWords bytes)) cr3 (.ofNat 64 page) p flags := by
  cases supply : s.vm.supply with
  | nil =>
      rw [loadPage, pmmAlloc, supply] at loaded
      cases loaded
  | cons p rest =>
      obtain ⟨vm', isNew, fill⟩ := pmmAlloc_filled supply
      refine ⟨p, rest, rfl, ?_⟩
      rw [loadPage, isNew]
      dsimp only
      rw [fill]

theorem Holds.mapped (holds : Holds cr3 kept image s.vm) (some : s.vm.supply ≠ [])
    (isLoaded : image page = .some bytes) :
    Mapped s.vm cr3 (.ofNat 64 page) bytes :=
  (holds.pages page bytes isLoaded).elim id fun missing => absurd missing.1 some

/-- Loading a page changes the image there. -/
theorem Holds.loadPage (holds : Holds cr3 kept image s.vm) (aligned : page % pageSize = 0) (low : page < 2 ^ 48)
    (isUser : user flags = true) (noAddress : flags &&& ptePhysMask = 0)
    (loaded : (loadPage cr3 page bytes flags s).1 = true) :
    Holds cr3 kept (Function.update image page (some bytes)) (Elf.loadPage cr3 page bytes flags s).2.vm := by
  obtain ⟨p, rest, supply, isState⟩ := loadPage_loaded loaded
  rw [isState]
  have tree := holds.tree
  have filledTree := tree.filled supply (pageWords bytes)
  have fresh : ∀ place, tableAt (s.vm.filled p rest (pageWords bytes)).mem cr3 place ≠ some p := fun place => by
    rw [tableAt_filled supply _ tree]
    exact tree.fresh_head supply place
  have gone : p ∉ rest := (List.nodup_cons.mp (supply ▸ tree.nodup)).1
  have aboves : ∀ virt, above (s.vm.filled p rest (pageWords bytes)).mem cr3 virt = above s.vm.mem cr3 virt :=
    fun virt => (walk_congr (fun _ _ found => filled_agree supply _ tree found) virt).2
  have olds : ∀ page bytes', image page = some bytes' →
      Mapped (s.vm.filled p rest (pageWords bytes)) cr3 (.ofNat 64 page) bytes' := fun page bytes' isLoaded =>
    (holds.mapped (by rw [supply]; exact List.cons_ne_nil p rest) isLoaded).filled supply _ tree
  have pages : ∀ page' bytes', Function.update image page (some bytes) page' = some bytes' →
      page' = page ∧ bytes' = bytes ∨ page' ≠ page ∧ image page' = some bytes' := fun page' bytes' isLoaded => by
    by_cases same : page' = page
    · subst same
      rw [Function.update_self] at isLoaded
      exact .inl ⟨rfl, (Option.some.inj isLoaded).symm⟩
    · rw [Function.update_of_ne same] at isLoaded
      exact .inr ⟨same, isLoaded⟩
  have places : ∀ page' bytes', Function.update image page (some bytes) page' = some bytes' →
      page' % pageSize = 0 ∧ page' < 2 ^ 48 := fun page' bytes' isLoaded => by
    rcases pages page' bytes' isLoaded with ⟨rfl, -⟩ | ⟨-, old⟩
    · exact ⟨aligned, low⟩
    · exact holds.aligned page' bytes' old
  have kepts : ∀ page, kept page → HasTable (s.vm.filled p rest (pageWords bytes)) cr3 (.ofNat 64 page) :=
    fun page isKept => by
      obtain ⟨pt, found⟩ := holds.tables page isKept
      exact ⟨pt, (tableAt_filled supply _ tree _).trans found⟩
  obtain ⟨noTable, extend⟩ | ⟨vm₁, pt, -, extend, found, isMap⟩ := vmmMap_cases filledTree (.ofNat 64 page) p flags
  · -- the last page of memory is lost, and no page that is kept needed it
    have exhausted : (vmmMap (s.vm.filled p rest (pageWords bytes)) cr3 (.ofNat 64 page) p flags).supply = [] := by
      have spec := (pteGet_spec filledTree (.ofNat 64 page)).2.2 noTable
      unfold vmmMap
      cases get : pteGet (s.vm.filled p rest (pageWords bytes)) cr3 (.ofNat 64 page) true with | mk result vm₁ =>
      rw [get] at noTable spec
      cases noTable
      exact spec
    refine ⟨extend.tree, fun virt => ?_, places, fun page isKept => (kepts page isKept).extends extend,
      fun page' bytes' isLoaded => ?_⟩
    · rw [extend.above, aboves]
      exact holds.ring3 virt
    · rcases pages page' bytes' isLoaded with ⟨rfl, rfl⟩ | ⟨-, old⟩
      · exact .inr ⟨exhausted, fun isKept => pteGet_found (kepts page' isKept) noTable⟩
      · exact .inl ((olds page' bytes' old).extends extend)
  · rw [isMap]
    have content : vm₁.mem p = pageWords bytes :=
      (extend.pages p gone fresh).trans (Function.update_self p _ _)
    have ring3 : ∀ virt, (above vm₁.mem cr3 virt).ring3 = true := fun virt => by
      rw [extend.above, aboves]
      exact holds.ring3 virt
    have noTable : ∀ place, tableAt vm₁.mem cr3 place ≠ some p := fun place isTable =>
      (extend.added place p isTable).elim (fresh place) gone
    have isFrame := frame_or_flags (tree.aligned_head supply) noAddress
    refine ⟨extend.tree.setLeaf found _, fun virt => ?_, places,
      fun page isKept => ((kepts page isKept).extends extend).setLeaf extend.tree found _,
      fun page' bytes' isLoaded => .inl ?_⟩
    · rw [above_setLeaf extend.tree found]
      exact ring3 virt
    · rcases pages page' bytes' isLoaded with ⟨rfl, rfl⟩ | ⟨other, old⟩
      · exact mapped_setLeaf extend.tree found (ring3 _) isUser isFrame content
          (fun member => gone (extend.supply.mem member)) noTable
      · obtain ⟨aligned', low'⟩ := holds.aligned page' bytes' old
        refine ((olds page' bytes' old).extends extend).setLeaf extend.tree found _ fun same => other ?_
        have quotient := (path_eq_iff low' low).mp same
        rw [← Nat.div_add_mod page' pageSize, ← Nat.div_add_mod page pageSize, quotient, aligned, aligned']

end Page

/-- A loop whose rounds change the image changes it so. -/
theorem rounds_holds {cr3 : Word} {kept : Nat → Prop} {body : Nat → Loading → Bool × Loading}
    (next : Nat → Image → Image) {is : List Nat}
    (step : ∀ i ∈ is, ∀ s image, Holds cr3 kept image s.vm → (body i s).1 = true →
      Holds cr3 kept (next i image) (body i s).2.vm)
    {s : Loading} {image : Image} (holds : Holds cr3 kept image s.vm) (done : (rounds body is s).1 = true) :
    Holds cr3 kept (is.foldl (fun image i => next i image) image) (rounds body is s).2.vm := by
  induction is generalizing s image with
  | nil => exact holds
  | cons i is ih =>
      cases first : (body i s).1 with
      | true =>
          rw [rounds_cons_true first] at done ⊢
          exact ih (fun j member => step j (List.mem_cons_of_mem i member))
            (step i List.mem_cons_self s image holds first) done
      | false =>
          rw [rounds_cons_false first] at done
          cases done

/-! ## Segments -/

namespace Elf64Phdr

variable (h : Elf64Phdr) (data : Memory)

/-- The segment has a page at the address. -/
def Covers (page : Nat) : Prop := ∃ pg < h.npages, page = h.pageVaddr pg

instance (page : Nat) : Decidable (h.Covers page) := by
  unfold Covers
  infer_instance

/-- Byte `k` of the segment: that of the file, and zero after those of the file. -/
def byte (k : Nat) : UInt8 := if k < h.filesz then around data (h.offset + k) else 0

/-- The bytes of the segment lie in the user range, those of the file first. -/
def InWindow : Prop := h.filesz ≤ h.memsz ∧ h.vaddr + h.memsz ≤ userTop

/-- The address of a byte of the segment. -/
def Has (va : Nat) : Prop := h.vaddr ≤ va ∧ va < h.vaddr + h.memsz

/-- The image after the segment was loaded. -/
def image (before : Image) : Image := fun page =>
  if h.Covers page then some (h.pageBytes data page) else before page

end Elf64Phdr

section Segment

variable {h : Elf64Phdr} {data : Memory} (window : h.InWindow)

include window

theorem vtop_eq : h.vtop = (h.vaddr + h.memsz + (pageSize - 1)) / pageSize * pageSize ∧ h.vtop ≤ userTop ∧
    h.vbase ≤ h.vtop := by
  have page : pageSize = 4096 := rfl
  have top : userTop = 0x800000000000 := rfl
  obtain ⟨-, high⟩ := window
  unfold Elf64Phdr.vtop Elf64Phdr.vbase alignDown
  rw [u64_of_lt (by omega), page]
  omega

theorem npages_eq : h.vbase + h.npages * pageSize = h.vtop := by
  have page : pageSize = 4096 := rfl
  have top : userTop = 0x800000000000 := rfl
  obtain ⟨isTop, low, order⟩ := vtop_eq window
  have difference : sub64 h.vtop h.vbase = h.vtop - h.vbase := by
    unfold sub64
    omega
  have aligned : h.vbase % pageSize = 0 := Nat.mul_mod_left _ _
  have aligned' : h.vtop % pageSize = 0 := Nat.mul_mod_left _ _
  rw [Elf64Phdr.npages, difference]
  rw [page] at aligned aligned' ⊢
  omega

/-- The pages of a segment, by address. -/
theorem covers_iff (page : Nat) : h.Covers page ↔ page % pageSize = 0 ∧ h.vbase ≤ page ∧ page < h.vtop := by
  have size : pageSize = 4096 := rfl
  have ends := npages_eq window
  have aligned : h.vbase % pageSize = 0 := Nat.mul_mod_left _ _
  obtain ⟨-, low, -⟩ := vtop_eq window
  constructor
  · rintro ⟨pg, less, rfl⟩
    have inside : (pg + 1) * pageSize ≤ h.npages * pageSize := Nat.mul_le_mul_right pageSize less
    rw [Nat.succ_mul] at inside
    rw [pageVaddr_eq (by omega)]
    refine ⟨by rw [Nat.add_mul_mod_self_right, aligned], by omega, by omega⟩
  · rintro ⟨aligned', above, below⟩
    rw [size] at aligned aligned' ends
    obtain ⟨pg, rfl⟩ : ∃ pg, page = h.vbase + pg * 4096 := ⟨(page - h.vbase) / 4096, by omega⟩
    have whole : h.vbase + pg * pageSize = h.vbase + pg * 4096 := rfl
    refine ⟨pg, by omega, ?_⟩
    rw [pageVaddr_eq (by omega), whole]

/-- Every byte of a segment is in a page of it. -/
theorem covers_byte {va : Nat} (has : h.Has va) : h.Covers (va / pageSize * pageSize) := by
  have size : pageSize = 4096 := rfl
  obtain ⟨isTop, low, -⟩ := vtop_eq window
  obtain ⟨from_, below⟩ := has
  rw [covers_iff window, isTop]
  unfold Elf64Phdr.vbase alignDown
  rw [size]
  omega

/-- The bytes of the file that go into a page of the segment. -/
theorem chunk_window {page : Nat} (covers : h.Covers page) :
    h.chunk page = if h.vaddr < page + pageSize ∧ page < h.vaddr + h.filesz ∧ 0 < h.filesz then
      some ⟨h.vaddr - page, page - h.vaddr, min (pageSize - (h.vaddr - page)) (h.filesz - (page - h.vaddr))⟩
    else none := by
  have size : pageSize = 4096 := rfl
  have top : userTop = 0x800000000000 := rfl
  obtain ⟨-, -, below⟩ := (covers_iff window page).mp covers
  obtain ⟨-, low, -⟩ := vtop_eq window
  obtain ⟨order, high⟩ := window
  have difference : i64 (sub64 page h.vaddr) = (page : Int) - h.vaddr := i64_sub64 (by omega) (by omega)
  have bytes : i64 h.filesz = h.filesz := by
    unfold i64
    rw [if_pos (by omega)]
  unfold Elf64Phdr.chunk
  rw [difference, bytes, size]
  dsimp only
  rcases Nat.lt_or_ge page h.vaddr with before | after
  · have negative : (page : Int) - h.vaddr < 0 := by omega
    rw [if_pos negative, if_pos negative]
    split_ifs <;> first | omega | rfl | skip
    congr 2 <;> omega
  · have positive : ¬ (page : Int) - h.vaddr < 0 := by omega
    rw [if_neg positive, if_neg positive]
    split_ifs <;> first | omega | rfl | skip
    congr 2 <;> omega

/-- What a page of the segment gets are the bytes of the segment, and zero around them. -/
theorem pageBytes_eq {page k : Nat} (covers : h.Covers page) (inside : k < pageSize) :
    h.pageBytes data page k = if h.vaddr ≤ page + k then h.byte data (page + k - h.vaddr) else 0 := by
  have wrap : ∀ a b, around data (u64 a + b) = around data (a + b) := fun a b => by
    unfold around u64
    rw [Nat.mod_add_mod]
  unfold Elf64Phdr.pageBytes Elf64Phdr.byte
  rw [chunk_window window covers]
  by_cases some : h.vaddr < page + pageSize ∧ page < h.vaddr + h.filesz ∧ 0 < h.filesz
  · rw [if_pos some]
    dsimp only
    rw [wrap]
    split_ifs <;> first | rfl | omega | skip
    congr 1
    omega
  · rw [if_neg some]
    split_ifs <;> first | rfl | omega

end Segment

/-- Pages that are loaded one after the other. -/
theorem foldl_update (pages : Nat → Nat) (bytes : Nat → Memory) (is : List Nat) (image : Image) :
    is.foldl (fun image i => Function.update image (pages i) (some (bytes (pages i)))) image =
      fun page => if ∃ i ∈ is, page = pages i then some (bytes page) else image page := by
  induction is generalizing image with
  | nil => simp
  | cons i is ih =>
      rw [List.foldl_cons, ih]
      funext page
      by_cases same : page = pages i
      · subst same
        simp
      · simp [same]

/-- The bytes of a page are those of the last segment that covers it. -/
theorem foldl_image (data : Memory) (segs : List Elf64Phdr) (image : Image) (page : Nat) :
    (segs.foldl (fun image h => h.image data image) image) page = image page ∧ (∀ h ∈ segs, ¬ h.Covers page) ∨
      ∃ h ∈ segs, h.Covers page ∧
        (segs.foldl (fun image h => h.image data image) image) page = some (h.pageBytes data page) := by
  induction segs generalizing image with
  | nil => exact .inl ⟨rfl, fun h member => absurd member List.not_mem_nil⟩
  | cons h segs ih =>
      rw [List.foldl_cons]
      rcases ih (h.image data image) with ⟨same, none⟩ | ⟨g, member, covers, same⟩
      · rw [same, Elf64Phdr.image]
        by_cases covers : h.Covers page
        · rw [if_pos covers]
          exact .inr ⟨h, List.mem_cons_self, covers, rfl⟩
        · rw [if_neg covers]
          exact .inl ⟨rfl, List.forall_mem_cons.mpr ⟨covers, none⟩⟩
      · exact .inr ⟨g, List.mem_cons_of_mem h member, covers, same⟩

/-! ## The loops of the loader -/

/-- The segments of a file, in the order of their headers. -/
def segments (data : Memory) : List Elf64Phdr :=
  ((List.range (elfHdr data).phnum).map fun i => elfPhdr data (phdrBase data i)).filter fun h => h.type = ptLoad

/-- The address is that of a page of the stack. -/
def IsStack (page : Nat) : Prop := ∃ sp ∈ List.range' 1 stackPages, page = stackPage sp

instance (page : Nat) : Decidable (IsStack page) := by
  unfold IsStack
  infer_instance

section Loops

variable {cr3 : Word} {kept : Nat → Prop} {image : Image} {s : Loading} {data : Memory}

theorem segFlags_user (h : Elf64Phdr) : user h.segFlags = true ∧ h.segFlags &&& ptePhysMask = 0 := by
  unfold Elf64Phdr.segFlags
  split_ifs
  · exact ⟨by decide, by decide⟩
  · exact ⟨by decide, by decide⟩

/-- A segment changes the image where it has pages. -/
theorem Holds.loadSegment {i : Nat} (holds : Holds cr3 kept image s.vm)
    (window : (elfPhdr data (phdrBase data i)).type = ptLoad → (elfPhdr data (phdrBase data i)).InWindow)
    (loaded : (loadSegment data cr3 i s).1 = true) :
    Holds cr3 kept (if (elfPhdr data (phdrBase data i)).type = ptLoad then
        (elfPhdr data (phdrBase data i)).image data image else image)
      (Elf.loadSegment data cr3 i s).2.vm := by
  by_cases isLoad : (elfPhdr data (phdrBase data i)).type = ptLoad
  · rw [loadSegment_load isLoad] at loaded ⊢
    rw [if_pos isLoad]
    have window := window isLoad
    have start : Holds cr3 kept image (segmentStart data i s).vm := holds
    generalize phdrBase data i = base at *
    have step : ∀ pg ∈ List.range (elfPhdr data base).npages, ∀ s image, Holds cr3 kept image s.vm →
        (loadSegmentPage data cr3 base pg s).1 = true →
        Holds cr3 kept (Function.update image ((elfPhdr data base).pageVaddr pg)
            (some ((elfPhdr data base).pageBytes data ((elfPhdr data base).pageVaddr pg))))
          (loadSegmentPage data cr3 base pg s).2.vm := fun pg member s image holds loaded => by
      obtain ⟨isUser, noAddress⟩ := segFlags_user (elfPhdr data base)
      obtain ⟨aligned, -, below⟩ := (covers_iff window _).mp ⟨pg, List.mem_range.mp member, rfl⟩
      obtain ⟨-, low, -⟩ := vtop_eq window
      have top : userTop < 2 ^ 48 := by decide
      rw [loadSegmentPage_eq] at loaded ⊢
      dsimp only at loaded ⊢
      rw [if_pos loaded]
      exact holds.loadPage aligned (by omega) isUser noAddress loaded
    have result := rounds_holds _ step start loaded
    rw [foldl_update (fun pg => (elfPhdr data base).pageVaddr pg) ((elfPhdr data base).pageBytes data)] at result
    simp only [List.mem_range] at result
    exact result
  · rw [loadSegment_other isLoad, if_neg isLoad]
    exact holds

/-- After the loop over the headers the process reads the image of the segments. -/
theorem Holds.loadSegments (holds : Holds cr3 kept image s.vm) (window : ∀ h ∈ segments data, h.InWindow)
    (loaded : (rounds (Elf.loadSegment data cr3) (List.range (elfHdr data).phnum) s).1 = true) :
    Holds cr3 kept ((segments data).foldl (fun image h => h.image data image) image)
      (rounds (Elf.loadSegment data cr3) (List.range (elfHdr data).phnum) s).2.vm := by
  have result := rounds_holds (fun i image => if (elfPhdr data (phdrBase data i)).type = ptLoad then
    (elfPhdr data (phdrBase data i)).image data image else image)
    (fun i member s image holds loaded =>
      Holds.loadSegment holds (fun isLoad => window _ (List.mem_filter.mpr
        ⟨List.mem_map.mpr ⟨i, member, rfl⟩, decide_eq_true isLoad⟩)) loaded) holds loaded
  unfold segments
  rw [List.foldl_filter, List.foldl_map]
  simp only [decide_eq_true_eq]
  exact result

/-- The stack replaces what the segments had there. -/
theorem Holds.loadStack (holds : Holds cr3 kept image s.vm)
    (loaded : (rounds (loadStackPage cr3) (List.range' 1 stackPages) s).1 = true) :
    Holds cr3 kept (fun page => if IsStack page then some fun _ => 0 else image page)
      (rounds (loadStackPage cr3) (List.range' 1 stackPages) s).2.vm := by
  have places : ∀ sp ∈ List.range' 1 stackPages, stackPage sp % pageSize = 0 ∧ stackPage sp < 2 ^ 48 := by decide
  have result := rounds_holds (fun sp image => Function.update image (stackPage sp) (some fun _ => 0))
    (fun sp member s image holds loaded => holds.loadPage (places sp member).1 (places sp member).2
      (by decide) (by decide) loaded) holds loaded
  rw [foldl_update stackPage fun _ _ => 0] at result
  exact result

end Loops

/-! ## What the process reads -/

section Result

variable {vm : Vm} {process_create : Nat → Option Created} {data : Memory} {created : Created}

/-- A load that succeeds has come through both loops. -/
theorem elfLoad_loaded (made : process_create (elfHdr data).entry = some created)
    (loaded : (elfLoad vm process_create data).1 ≠ -1) :
    ∃ s s₁ : Loading, s.vm = created.vm ∧
      (rounds (loadSegment data created.cr3) (List.range (elfHdr data).phnum) s).1 = true ∧
      (rounds (loadSegment data created.cr3) (List.range (elfHdr data).phnum) s).2 = s₁ ∧
      (rounds (loadStackPage created.cr3) (List.range' 1 stackPages) s₁).1 = true ∧
      (rounds (loadStackPage created.cr3) (List.range' 1 stackPages) s₁).2 = (elfLoad vm process_create data).2 := by
  unfold elfLoad at loaded ⊢
  dsimp only at loaded ⊢
  split_ifs at loaded ⊢ with verified
  · rw [made] at loaded ⊢
    dsimp only at loaded ⊢
    unfold loadProcess at loaded ⊢
    dsimp only at loaded ⊢
    generalize start : ({ Loading.read _ [(56, 2), (54, 2), (32, 8)] with vm := created.vm } : Loading) = s at loaded ⊢
    have isVm : s.vm = created.vm := by rw [← start]
    refine ⟨s, (rounds (loadSegment data created.cr3) (List.range (elfHdr data).phnum) s).2, isVm, ?_⟩
    cases loop : rounds (loadSegment data created.cr3) (List.range (elfHdr data).phnum) s with
    | mk ok s₁ =>
        rw [loop] at loaded
        cases ok with
        | false => exact absurd rfl loaded
        | true =>
            dsimp only at loaded ⊢
            refine ⟨rfl, rfl, ?_⟩
            cases loop' : rounds (loadStackPage created.cr3) (List.range' 1 stackPages) s₁ with
            | mk ok s₂ =>
                rw [loop'] at loaded
                cases ok with
                | false => exact absurd rfl loaded
                | true => exact ⟨rfl, rfl⟩
  · exact absurd rfl loaded

/-- The image of the segments alone. -/
def segmentImage (data : Memory) : Image := (segments data).foldl (fun image h => h.image data image) fun _ => none

theorem elfLoad_holds (made : process_create (elfHdr data).entry = some created)
    (space : UserSpace created.vm created.cr3) (window : ∀ h ∈ segments data, h.InWindow)
    (loaded : (elfLoad vm process_create data).1 ≠ -1) :
    Holds created.cr3 (fun page => segmentImage data page ≠ none)
      (fun page => if IsStack page then some fun _ => 0 else segmentImage data page)
      (elfLoad vm process_create data).2.vm := by
  obtain ⟨s, s₁, isVm, done, isNext, done', isResult⟩ := elfLoad_loaded made loaded
  have start : Holds created.cr3 (fun _ => False) (fun _ => none) s.vm :=
    ⟨isVm ▸ space.tree, isVm ▸ space.ring3, fun _ _ none => (by cases none), fun _ no => no.elim,
      fun _ _ none => by cases none⟩
  have middle := start.loadSegments window done
  rw [isNext] at middle
  -- the first page of the stack shows that no page of a segment was lost
  have more : s₁.vm.supply ≠ [] := fun exhausted => by
    have first : (loadStackPage created.cr3 1 s₁).1 = false := by
      rw [loadStackPage, loadPage, pmmAlloc, exhausted]
    have isList : List.range' 1 stackPages = 1 :: List.range' 2 31 := rfl
    rw [isList, rounds_cons_false first] at done'
    cases done'
  have stack : Holds created.cr3 (fun page => segmentImage data page ≠ none) (segmentImage data) s₁.vm :=
    ⟨middle.tree, middle.ring3, middle.aligned, fun page isLoaded => by
      obtain ⟨bytes, isLoaded⟩ := Option.ne_none_iff_exists'.mp isLoaded
      exact (middle.mapped more isLoaded).table, fun page bytes isLoaded => .inl (middle.mapped more isLoaded)⟩
  rw [← isResult]
  exact stack.loadStack done'

/-- The page of an address. -/
def pageOf (va : Nat) : Nat := va / pageSize * pageSize

/-- A byte of a segment is what the process reads, unless its page was loaded again. -/
theorem elfLoad_reads (made : process_create (elfHdr data).entry = some created)
    (space : UserSpace created.vm created.cr3) (window : ∀ h ∈ segments data, h.InWindow)
    (apart : (segments data).Pairwise fun g h => ∀ va, ¬ (g.Has va ∧ h.Has va))
    (loaded : (elfLoad vm process_create data).1 ≠ -1) {before after : List Elf64Phdr} {h : Elf64Phdr}
    (split : segments data = before ++ h :: after) {k : Nat} (inside : k < h.memsz) :
    processByte (elfLoad vm process_create data).2.vm created.cr3 (h.vaddr + k) =
      some (if IsStack (pageOf (h.vaddr + k)) ∨ ∃ g ∈ after, g.Covers (pageOf (h.vaddr + k)) then 0
        else h.byte data k) := by
  have holds := elfLoad_holds made space window loaded
  have isWindow : h.InWindow := window h (by simp [split])
  have covers : h.Covers (pageOf (h.vaddr + k)) := covers_byte isWindow ⟨Nat.le_add_right _ _, by omega⟩
  have whole : pageOf (h.vaddr + k) + (h.vaddr + k) % pageSize = h.vaddr + k := by
    rw [pageOf, Nat.mul_comm, Nat.div_add_mod]
  have offset : (h.vaddr + k) % pageSize < pageSize := Nat.mod_lt _ (by decide)
  have own : h.pageBytes data (pageOf (h.vaddr + k)) ((h.vaddr + k) % pageSize) = h.byte data k := by
    rw [pageBytes_eq isWindow covers offset, whole, if_pos (Nat.le_add_right _ _), Nat.add_sub_cancel_left]
  have other : ∀ g ∈ after, g.Covers (pageOf (h.vaddr + k)) →
      g.pageBytes data (pageOf (h.vaddr + k)) ((h.vaddr + k) % pageSize) = 0 := fun g member covers => by
    have isWindow' : g.InWindow := window g (by simp [split, member])
    rw [split, List.pairwise_append] at apart
    have notHas : ¬ g.Has (h.vaddr + k) := fun has =>
      (List.pairwise_cons.mp apart.2.1).1 g member _ ⟨⟨Nat.le_add_right _ _, by omega⟩, has⟩
    rw [pageBytes_eq isWindow' covers offset, whole]
    unfold Elf64Phdr.Has at notHas
    unfold Elf64Phdr.byte
    have order := isWindow'.1
    split_ifs <;> first | rfl | omega
  have isImage : segmentImage data =
      after.foldl (fun image h => h.image data image) (h.image data (before.foldl (fun image h => h.image data image)
        fun _ => none)) := by
    rw [segmentImage, split, List.foldl_append, List.foldl_cons]
  have shown : ∃ bytes, segmentImage data (pageOf (h.vaddr + k)) = some bytes ∧ bytes ((h.vaddr + k) % pageSize) =
      if ∃ g ∈ after, g.Covers (pageOf (h.vaddr + k)) then 0 else h.byte data k := by
    rw [isImage]
    rcases foldl_image data after _ (pageOf (h.vaddr + k)) with ⟨same, none⟩ | ⟨g, member, covers', same⟩
    · rw [same, Elf64Phdr.image, if_pos covers, if_neg (by simpa using none)]
      exact ⟨_, rfl, own⟩
    · rw [same, if_pos ⟨g, member, covers'⟩]
      exact ⟨_, rfl, other g member covers'⟩
  obtain ⟨bytes, isBytes, isByte⟩ := shown
  have low : h.vaddr + k < 2 ^ 48 := by
    have top : userTop < 2 ^ 48 := by decide
    have high := isWindow.2
    omega
  have low' : pageOf (h.vaddr + k) < 2 ^ 48 := Nat.lt_of_le_of_lt (by omega) low
  have samePage : (h.vaddr + k) / pageSize = pageOf (h.vaddr + k) / pageSize := by
    rw [pageOf, Nat.mul_div_cancel _ (by decide : 0 < pageSize)]
  have reads : ∀ bytes, (if IsStack (pageOf (h.vaddr + k)) then some fun _ => 0
      else segmentImage data (pageOf (h.vaddr + k))) = some bytes →
      processByte (elfLoad vm process_create data).2.vm created.cr3 (h.vaddr + k) =
        some (bytes ((h.vaddr + k) % pageSize)) := fun bytes isLoaded => by
    rcases holds.pages (pageOf (h.vaddr + k)) bytes isLoaded with mapped | ⟨-, lost⟩
    · exact mapped.reads low' low samePage
    · exact absurd (by rw [isBytes]; exact Option.some_ne_none _) lost
  by_cases stack : IsStack (pageOf (h.vaddr + k))
  · rw [if_pos (.inl stack)]
    exact reads _ (if_pos stack)
  · rw [reads bytes ((if_neg stack).trans isBytes), isByte]
    simp [stack]

/-- The process reads the bytes of its segments. -/
def Shows (vm : Vm) (cr3 : Word) (data : Memory) : Prop :=
  ∀ h ∈ segments data, ∀ k < h.memsz, processByte vm cr3 (h.vaddr + k) = some (h.byte data k)

/-- A page with a byte of a segment other than zero is not loaded again, for a later segment or for the stack. -/
def LoadedOnce (data : Memory) : Prop :=
  ∀ before h after, segments data = before ++ h :: after → ∀ k < h.memsz, h.byte data k ≠ 0 →
    ¬ IsStack (pageOf (h.vaddr + k)) ∧ ∀ g ∈ after, ¬ g.Covers (pageOf (h.vaddr + k))

/-- A new process reads its file when no page with something in it was loaded again. -/
theorem elfLoad_image_iff (made : process_create (elfHdr data).entry = some created)
    (space : UserSpace created.vm created.cr3) (window : ∀ h ∈ segments data, h.InWindow)
    (apart : (segments data).Pairwise fun g h => ∀ va, ¬ (g.Has va ∧ h.Has va))
    (loaded : (elfLoad vm process_create data).1 ≠ -1) :
    Shows (elfLoad vm process_create data).2.vm created.cr3 data ↔ LoadedOnce data := by
  constructor
  · intro shows before h after split k inside some
    have isRead := shows h (by simp [split]) k inside
    rw [elfLoad_reads made space window apart loaded split inside] at isRead
    split_ifs at isRead with again
    · exact absurd (Option.some.inj isRead).symm some
    · exact ⟨fun stack => again (.inl stack), fun g member covers => again (.inr ⟨g, member, covers⟩)⟩
  · intro once h member k inside
    obtain ⟨before, after, split⟩ := List.append_of_mem member
    rw [elfLoad_reads made space window apart loaded split inside]
    split_ifs with again
    · by_cases zero : h.byte data k = 0
      · rw [zero]
      · obtain ⟨notStack, notLater⟩ := once before h after split k inside zero
        exact again.elim (fun stack => absurd stack notStack) fun ⟨g, member, covers⟩ =>
          absurd covers (notLater g member)
    · rfl

/-- With enough pages a file is loaded. -/
theorem elfLoad_succeeds (verified : elfVerify data) (made : process_create (elfHdr data).entry = some created)
    (enough : ((List.range (elfHdr data).phnum).map (segmentCost data)).sum + stackPages * 4 ≤
      created.vm.supply.length) : (elfLoad vm process_create data).1 = created.pid := by
  unfold elfLoad
  dsimp only
  rw [if_pos verified, made]
  dsimp only
  unfold loadProcess
  dsimp only
  generalize start : ({ Loading.read _ [(56, 2), (54, 2), (32, 8)] with vm := created.vm } : Loading) = s
  have left : s.left = created.vm.supply.length := by rw [← start]; rfl
  obtain ⟨done, paid⟩ : (rounds (loadSegment data created.cr3) (List.range (elfHdr data).phnum) s).1 = true ∧
      s.left ≤ (rounds (loadSegment data created.cr3) (List.range (elfHdr data).phnum) s).2.left +
        ((List.range (elfHdr data).phnum).map (segmentCost data)).sum :=
    rounds_finish (fun i _ _ => loadSegment_pays i) (Nat.le_trans (Nat.le_of_add_right_le enough) left.ge)
  have stackCost : ((List.range' 1 stackPages).map fun _ => 4).sum = stackPages * 4 := rfl
  have done' : (rounds (loadStackPage created.cr3) (List.range' 1 stackPages)
      (rounds (loadSegment data created.cr3) (List.range (elfHdr data).phnum) s).2).1 = true :=
    (rounds_finish (fun _ _ _ enough => loadPage_pays enough) (by omega)).1
  cases loop : rounds (loadSegment data created.cr3) (List.range (elfHdr data).phnum) s with
  | mk ok s₁ =>
      rw [loop] at done done'
      subst done
      dsimp only at done' ⊢
      cases loop' : rounds (loadStackPage created.cr3) (List.range' 1 stackPages) s₁ with
      | mk ok s₂ =>
          rw [loop'] at done'
          subst done'
          rfl

end Result

/-! ### Two files -/

/-! ### Two files -/

/-- The address of page `k` is that of a page. -/
theorem frame_page_address {k : Nat} (low : k < 2 ^ 40) : frame (.ofNat 64 (k * 2 ^ 12)) = .ofNat 64 (k * 2 ^ 12) := by
  have mask : ∀ i < 64, ptePhysMask.getLsbD i = (decide (12 ≤ i) && decide (i < 52)) := by decide
  refine BitVec.eq_of_getLsbD_eq fun i inside => ?_
  rw [frame, BitVec.getLsbD_and, mask i inside, BitVec.getLsbD_ofNat, Nat.testBit_mul_two_pow]
  by_cases high : i < 52
  · simp +contextual [high]
  · have none : k.testBit (i - 12) = false := Nat.testBit_lt_two_pow (Nat.lt_of_lt_of_le low
      (Nat.pow_le_pow_right (by decide) (by omega)))
    simp [none]

/-- The machine with free pages has an empty space. -/
theorem userSpace_roomy {n : Nat} (few : n ≤ 2 ^ 30) : UserSpace (roomy n).vm (roomy n).cr3 := by
  have empty : ∀ i, present ((roomy n).vm.mem (roomy n).cr3 i) = false := fun _ => (by decide : present 0 = false)
  have address : ∀ i, Systrix.ramStart + i * pageSize = (1024 + i) * 2 ^ 12 := fun i => by
    rw [Nat.add_mul]
    rfl
  have value : ∀ i < n, (BitVec.ofNat 64 (Systrix.ramStart + i * pageSize)).toNat = (1024 + i) * 2 ^ 12 :=
    fun i low => by
    rw [BitVec.toNat_ofNat, address, Nat.mod_eq_of_lt (by omega)]
  have nodup : (roomy n).vm.supply.Nodup := by
    refine List.nodup_range.map_on fun i low j low' same => ?_
    have same := congrArg BitVec.toNat same
    rw [value i (List.mem_range.mp low), value j (List.mem_range.mp low')] at same
    omega
  refine ⟨tree_empty empty (fun member => ?_) nodup fun p member => ?_, ring3_empty empty⟩
  · obtain ⟨i, low, same⟩ := List.mem_map.mp member
    have same := congrArg BitVec.toNat same
    have root : (roomy n).cr3.toNat = 2 ^ 12 := rfl
    rw [value i (List.mem_range.mp low), root] at same
    omega
  · obtain ⟨i, low, rfl⟩ := List.mem_map.mp member
    rw [address]
    exact frame_page_address (by have := List.mem_range.mp low; omega)

theorem length_roomy (n : Nat) : (roomy n).vm.supply.length = n := (List.length_map _).trans List.length_range

theorem elfLoad_image_iff_oneSegment :
    Shows (elfLoad (roomy 200).vm (fun _ => some (roomy 200)) oneSegment).2.vm (roomy 200).cr3 oneSegment := by
  have isList : segments oneSegment = [⟨1, 5, 120, 0x400000, 8, 16⟩] := by decide +kernel
  have cost : ((List.range (elfHdr oneSegment).phnum).map (segmentCost oneSegment)).sum = 4 := by decide +kernel
  have window : ∀ h ∈ segments oneSegment, h.InWindow := by
    rw [isList]
    exact List.forall_mem_singleton.mpr ⟨by decide, by decide⟩
  have apart : (segments oneSegment).Pairwise fun g h => ∀ va, ¬ (g.Has va ∧ h.Has va) := by
    rw [isList]
    exact List.pairwise_singleton _ _
  have once : LoadedOnce oneSegment := by
    intro before h after split k inside _
    rw [isList] at split
    cases before with
    | cons g before => exact absurd (congrArg List.length split) (by simp)
    | nil =>
        obtain ⟨rfl, rfl⟩ := List.cons.inj split
        have notStack : ¬ IsStack 0x400000 := by decide +kernel
        have isPage : pageOf (0x400000 + k) = 0x400000 := by
          have small : k < 16 := inside
          show (0x400000 + k) / 4096 * 4096 = 0x400000
          omega
        refine ⟨fun stack => notStack ?_, fun g member => absurd member List.not_mem_nil⟩
        rw [← isPage]
        exact stack
  have every : ∀ created : Created, UserSpace created.vm created.cr3 → created.vm.supply.length = 200 →
      Shows (elfLoad created.vm (fun _ => some created) oneSegment).2.vm created.cr3 oneSegment :=
    fun created space pages => by
      have loaded : (elfLoad created.vm (fun _ => some created) oneSegment).1 = created.pid :=
        @elfLoad_succeeds created.vm (fun _ => some created) _ created (by decide +kernel) rfl
          (by rw [cost, pages]; decide)
      exact (@elfLoad_image_iff created.vm (fun _ => some created) oneSegment created rfl space window apart
        (by omega)).mpr once
  exact every (roomy 200) (userSpace_roomy (by decide)) (length_roomy 200)

/-- Two segments in one page of memory. -/
def sharedPage : Memory := fun i =>
  [0x7f, 0x45, 0x4c, 0x46, 2, 1, 1, 0, 0, 0, 0, 0, 0, 0, 0, 0, 2, 0, 62, 0, 1, 0, 0, 0, 0, 0, 0x40, 0, 0, 0, 0, 0,
    64, 0, 0, 0, 0, 0, 0, 0, 0, 0, 0, 0, 0, 0, 0, 0, 0, 0, 0, 0, 64, 0, 56, 0, 2, 0, 0, 0, 0, 0, 0, 0,
    1, 0, 0, 0, 5, 0, 0, 0, 176, 0, 0, 0, 0, 0, 0, 0, 0, 0, 0x40, 0, 0, 0, 0, 0, 0, 0, 0x40, 0, 0, 0, 0, 0,
    1, 0, 0, 0, 0, 0, 0, 0, 1, 0, 0, 0, 0, 0, 0, 0, 0, 16, 0, 0, 0, 0, 0, 0,
    1, 0, 0, 0, 6, 0, 0, 0, 177, 0, 0, 0, 0, 0, 0, 0, 0, 8, 0x40, 0, 0, 0, 0, 0, 0, 8, 0x40, 0, 0, 0, 0, 0,
    1, 0, 0, 0, 0, 0, 0, 0, 1, 0, 0, 0, 0, 0, 0, 0, 0, 16, 0, 0, 0, 0, 0, 0,
    0x90, 0x91].getD i 0

/-- The first segment is gone when the second one has been loaded. -/
theorem sharedPage_lost :
    UserSpace (roomy 200).vm (roomy 200).cr3 ∧ (∀ h ∈ segments sharedPage, h.InWindow) ∧
      (segments sharedPage).Pairwise (fun g h => ∀ va, ¬ (g.Has va ∧ h.Has va)) ∧
      (elfLoad (roomy 200).vm (fun _ => some (roomy 200)) sharedPage).1 = (roomy 200).pid ∧
      ¬ Shows (elfLoad (roomy 200).vm (fun _ => some (roomy 200)) sharedPage).2.vm (roomy 200).cr3 sharedPage := by
  have isList : segments sharedPage = [] ++ ⟨1, 5, 176, 0x400000, 1, 1⟩ :: [⟨1, 6, 177, 0x400800, 1, 1⟩] := by
    decide +kernel
  have cost : ((List.range (elfHdr sharedPage).phnum).map (segmentCost sharedPage)).sum = 8 := by decide +kernel
  have window : ∀ h ∈ segments sharedPage, h.InWindow := by
    rw [isList]
    exact List.forall_mem_cons.mpr ⟨⟨by decide, by decide⟩, List.forall_mem_singleton.mpr ⟨by decide, by decide⟩⟩
  have apart : (segments sharedPage).Pairwise fun g h => ∀ va, ¬ (g.Has va ∧ h.Has va) := by
    rw [isList]
    refine List.pairwise_pair.mpr fun va both => ?_
    unfold Elf64Phdr.Has at both
    dsimp only at both
    omega
  have again : ∃ g ∈ [(⟨1, 6, 177, 0x400800, 1, 1⟩ : Elf64Phdr)], g.Covers (pageOf (0x400000 + 0)) := by decide +kernel
  have byte : (⟨1, 5, 176, 0x400000, 1, 1⟩ : Elf64Phdr).byte sharedPage 0 = 0x90 := by decide +kernel
  have every : ∀ created : Created, UserSpace created.vm created.cr3 → created.vm.supply.length = 200 →
      (elfLoad created.vm (fun _ => some created) sharedPage).1 = created.pid ∧
        ¬ Shows (elfLoad created.vm (fun _ => some created) sharedPage).2.vm created.cr3 sharedPage :=
    fun created space pages => by
      have loaded : (elfLoad created.vm (fun _ => some created) sharedPage).1 = created.pid :=
        @elfLoad_succeeds created.vm (fun _ => some created) _ created (by decide +kernel) rfl
          (by rw [cost, pages]; decide)
      refine ⟨loaded, fun shows => ?_⟩
      have isRead := shows ⟨1, 5, 176, 0x400000, 1, 1⟩ (by simp [isList]) 0 (by decide)
      rw [byte] at isRead
      have success : (elfLoad created.vm (fun _ => some created) sharedPage).1 ≠ -1 := by omega
      have isZero := @elfLoad_reads created.vm (fun _ => some created) sharedPage created rfl space window apart success
        _ _ _ isList 0 (by decide)
      rw [if_pos (.inr again)] at isZero
      exact absurd (Option.some.inj (isZero.symm.trans isRead)) (by decide)
  have space : UserSpace (roomy 200).vm (roomy 200).cr3 := userSpace_roomy (by decide)
  exact ⟨space, window, apart, every (roomy 200) space (length_roomy 200)⟩

end Systrix.Elf
