import Mathlib.Data.List.Range
import Systrix.Elf.Loader

/-!
# What the ELF loader touches

Which files `elf_load` reads inside their bounds and maps inside the user range, whatever the
allocator does.
-/

namespace Systrix.Elf

open ByteMemory Machine Vmm

/-- End of the addresses of user space, 128 TB. -/
def userTop : Nat := 0x800000000000

/-- Bytes of the file header that are read. -/
def headerBytes (data : Memory) : Nat :=
  if (elfHdr data).magic ≠ elfMagic then 4
  else if (elfHdr data).cls ≠ elfClass64 then 5
  else if (elfHdr data).type ≠ etExec then 18
  else if (elfHdr data).machine ≠ emX86_64 then 20
  else 58

/-- The pages of a segment lie in the user range, and its bytes in the file. -/
def Elf64Phdr.Fits (h : Elf64Phdr) (size : Nat) : Prop :=
  h.npages = 0 ∨ h.vbase + h.npages * pageSize ≤ userTop ∧
    (h.filesz = 0 ∨ 2 ^ 63 ≤ h.filesz ∨
      h.offset + min h.filesz (h.npages * pageSize - h.vaddr % pageSize) ≤ size)

/-- The headers and the segments lie in the file. -/
def FileFits (data : Memory) (size : Nat) : Prop :=
  headerBytes data ≤ size ∧
    (elfVerify data → ∀ i < (elfHdr data).phnum, phdrBase data i + 4 ≤ size ∧
      ((elfPhdr data (phdrBase data i)).type = ptLoad →
        phdrBase data i + 48 ≤ size ∧ (elfPhdr data (phdrBase data i)).Fits size))

/-- Reads are inside the file and pages inside the user range. -/
structure Loading.Inside (size : Nat) (s : Loading) : Prop where
  reads : ∀ span ∈ s.reads, span.1 + span.2 ≤ size
  maps : ∀ page ∈ s.maps, page + pageSize ≤ userTop

theorem Loading.Inside.read {size : Nat} {s : Loading} (inside : s.Inside size) {spans : List Span}
    (more : ∀ span ∈ spans, span.1 + span.2 ≤ size) : (s.read spans).Inside size where
  reads span member := (List.mem_append.mp member).elim (more span) (inside.reads span)
  maps := inside.maps

/-! ## Rounds -/

section Rounds

variable {body : Nat → Loading → Bool × Loading}

theorem rounds_cons_true {i : Nat} {is : List Nat} {s : Loading} (done : (body i s).1 = true) :
    rounds body (i :: is) s = rounds body is (body i s).2 := by
  rw [rounds]
  cases step : body i s with
  | mk ok s' =>
      rw [step] at done
      cases ok with
      | true => rfl
      | false => cases done

theorem rounds_cons_false {i : Nat} {is : List Nat} {s : Loading} (failed : (body i s).1 = false) :
    rounds body (i :: is) s = (false, (body i s).2) := by
  rw [rounds]
  cases step : body i s with
  | mk ok s' =>
      rw [step] at failed
      cases ok with
      | true => cases failed
      | false => rfl

/-- What every round preserves holds after the loop. -/
theorem rounds_invariant {I : Loading → Prop} {is : List Nat}
    (keeps : ∀ i ∈ is, ∀ s, I s → I (body i s).2) {s : Loading} (holds : I s) : I (rounds body is s).2 := by
  induction is generalizing s with
  | nil => exact holds
  | cons i is ih =>
      have next := keeps i List.mem_cons_self s holds
      have later : ∀ j ∈ is, ∀ s, I s → I (body j s).2 := fun j member => keeps j (List.mem_cons_of_mem i member)
      cases done : (body i s).1 with
      | true =>
          rw [rounds_cons_true done]
          exact ih later next
      | false =>
          rw [rounds_cons_false done]
          exact next

end Rounds

/-! ## Addresses of a segment -/

theorem vbase_add (h : Elf64Phdr) : h.vbase + h.vaddr % pageSize = h.vaddr := by
  unfold Elf64Phdr.vbase alignDown
  have split := Nat.div_add_mod h.vaddr pageSize
  rw [Nat.mul_comm] at split
  exact split

theorem elfPhdr_lt (data : Memory) (base : Nat) :
    (elfPhdr data base).vaddr < 2 ^ 64 ∧ (elfPhdr data base).offset < 2 ^ 64 ∧
      (elfPhdr data base).filesz < 2 ^ 64 :=
  ⟨load_lt _ _ 8, load_lt _ _ 8, load_lt _ _ 8⟩

/-- A difference of addresses that are near each other. -/
theorem i64_sub64 {a b : Nat} (small : a < 2 ^ 63) (small' : b < 2 ^ 63) : i64 (sub64 a b) = (a : Int) - b := by
  unfold i64 sub64
  split <;> omega

section Segment

variable {h : Elf64Phdr}

/-- The pages of a segment that lies in the user range do not wrap around. -/
theorem pageVaddr_eq {pg : Nat} (low : h.vbase + pg * pageSize ≤ userTop) :
    h.pageVaddr pg = h.vbase + pg * pageSize := by
  have top : userTop < 2 ^ 64 := by decide
  exact u64_of_lt (by omega)

/-- The pages lie in the user range when the last one does. -/
theorem pages_inside_iff (vaddr : h.vaddr < 2 ^ 64) {n : Nat} (some : 0 < n) :
    (∀ pg < n, h.pageVaddr pg + pageSize ≤ userTop) ↔ h.vbase + n * pageSize ≤ userTop := by
  have page : pageSize = 4096 := rfl
  have top : userTop < 2 ^ 64 := by decide
  constructor
  · intro inside
    induction n with
    | zero => exact absurd some (Nat.lt_irrefl 0)
    | succ n ih =>
        have last := inside n (Nat.lt_succ_self n)
        have below : h.vbase + n * pageSize < 2 ^ 64 := by
          have aligned := alignDown_le h.vaddr pageSize
          rcases Nat.eq_zero_or_pos n with zero | positive
          · subst zero
            unfold Elf64Phdr.vbase
            omega
          · have before := ih positive fun pg less => inside pg (Nat.lt_succ_of_lt less)
            omega
        rw [Elf64Phdr.pageVaddr, u64_of_lt below] at last
        rw [Nat.succ_mul]
        omega
  · intro inside pg less
    have step : (pg + 1) * pageSize ≤ n * pageSize := Nat.mul_le_mul_right _ less
    rw [Nat.succ_mul] at step
    rw [pageVaddr_eq (by omega)]
    omega

/-- Bytes of the file in the first pages of a segment. -/
def Elf64Phdr.fileBytes (h : Elf64Phdr) (pages : Nat) : Nat := min h.filesz (pages * pageSize - h.vaddr % pageSize)

/-- The signed distance of a page to the start of the segment. -/
theorem pageVaddr_sub {pg : Nat} (low : h.vbase + (pg + 1) * pageSize ≤ userTop) :
    i64 (sub64 (h.pageVaddr pg) h.vaddr) = (pg * pageSize : Nat) - (h.vaddr % pageSize : Nat) := by
  have page : pageSize = 4096 := rfl
  have top : userTop = 0x800000000000 := rfl
  have rest := Nat.mod_lt h.vaddr (by decide : 0 < pageSize)
  have whole := vbase_add h
  rw [Nat.succ_mul] at low
  rw [pageVaddr_eq (by omega), i64_sub64 (by omega) (by omega)]
  omega

/-- A page gets the bytes of the file that its predecessors did not get. -/
theorem chunk_eq {pg : Nat} (low : h.vbase + (pg + 1) * pageSize ≤ userTop) (filesz : h.filesz < 2 ^ 63) :
    h.chunk (h.pageVaddr pg) =
      if h.fileBytes pg < h.fileBytes (pg + 1) then
        some ⟨if pg = 0 then h.vaddr % pageSize else 0, h.fileBytes pg, h.fileBytes (pg + 1) - h.fileBytes pg⟩
      else none := by
  have difference := pageVaddr_sub low
  have page : pageSize = 4096 := rfl
  have top : userTop = 0x800000000000 := rfl
  have rest := Nat.mod_lt h.vaddr (by decide : 0 < pageSize)
  have whole := vbase_add h
  rw [Nat.succ_mul] at low
  have size : i64 h.filesz = h.filesz := by
    unfold i64
    rw [if_pos filesz]
  have start : pg = 0 ∧ pg * pageSize = 0 ∨ pg ≠ 0 ∧ pageSize ≤ pg * pageSize := by
    rcases Nat.eq_zero_or_pos pg with zero | positive
    · exact .inl ⟨zero, by rw [zero, Nat.zero_mul]⟩
    · exact .inr ⟨by omega, Nat.le_mul_of_pos_left _ positive⟩
  unfold Elf64Phdr.chunk
  rw [difference, size]
  unfold Elf64Phdr.fileBytes
  rw [Nat.succ_mul]
  generalize h.vaddr % pageSize = r at *
  generalize pg * pageSize = q at *
  generalize h.filesz = f at *
  dsimp only
  rw [page] at *
  rcases start with ⟨zero, rfl⟩ | ⟨later, large⟩
  · rw [if_pos zero]
    split_ifs <;> grind
  · rw [if_neg later]
    split_ifs <;> grind

/-- A size with the top bit is negative for the comparisons, and nothing is copied. -/
theorem chunk_negative {pg : Nat} (low : h.vbase + (pg + 1) * pageSize ≤ userTop) (large : 2 ^ 63 ≤ h.filesz)
    (filesz : h.filesz < 2 ^ 64) : h.chunk (h.pageVaddr pg) = none := by
  have difference := pageVaddr_sub low
  have page : pageSize = 4096 := rfl
  have top : userTop = 0x800000000000 := rfl
  have rest := Nat.mod_lt h.vaddr (by decide : 0 < pageSize)
  have whole := vbase_add h
  rw [Nat.succ_mul] at low
  have size : i64 h.filesz < 0 := by
    unfold i64
    rw [if_neg (by omega)]
    omega
  unfold Elf64Phdr.chunk
  rw [difference]
  generalize i64 h.filesz = f at *
  dsimp only
  split_ifs <;> grind

theorem fileBytes_mono {n m : Nat} (le : n ≤ m) : h.fileBytes n ≤ h.fileBytes m := by
  have pages := Nat.mul_le_mul_right pageSize le
  unfold Elf64Phdr.fileBytes
  omega

theorem fileBytes_zero : h.fileBytes 0 = 0 := by
  unfold Elf64Phdr.fileBytes
  omega

/-- The bytes of a page are read where those of its predecessors end. -/
theorem mem_chunkReads {pg : Nat} (low : h.vbase + (pg + 1) * pageSize ≤ userTop) (filesz : h.filesz < 2 ^ 63)
    (span : Span) : span ∈ h.chunkReads (h.pageVaddr pg) ↔ h.fileBytes pg < h.fileBytes (pg + 1) ∧
      span = (u64 (h.offset + h.fileBytes pg), h.fileBytes (pg + 1) - h.fileBytes pg) := by
  unfold Elf64Phdr.chunkReads
  rw [chunk_eq low filesz]
  by_cases more : h.fileBytes pg < h.fileBytes (pg + 1)
  · rw [if_pos more, and_iff_right more]
    exact List.mem_singleton
  · rw [if_neg more]
    exact ⟨fun member => absurd member List.not_mem_nil, fun both => absurd both.1 more⟩

/-- The bytes of a segment lie in the file when the last one does. -/
theorem reads_inside_iff {size : Nat} (usize : size < 2 ^ 64) (offset : h.offset < 2 ^ 64) (filesz : h.filesz < 2 ^ 64)
    {n : Nat} (some : 0 < n) (low : h.vbase + n * pageSize ≤ userTop) :
    (∀ pg < n, ∀ span ∈ h.chunkReads (h.pageVaddr pg), span.1 + span.2 ≤ size) ↔
      h.filesz = 0 ∨ 2 ^ 63 ≤ h.filesz ∨ h.offset + h.fileBytes n ≤ size := by
  have below : ∀ pg < n, h.vbase + (pg + 1) * pageSize ≤ userTop := fun pg less => by
    have pages : (pg + 1) * pageSize ≤ n * pageSize := Nat.mul_le_mul_right pageSize less
    omega
  have rest := Nat.mod_lt h.vaddr (by decide : 0 < pageSize)
  rcases Nat.lt_or_ge h.filesz (2 ^ 63) with small | large
  · constructor
    · intro inside
      by_cases empty : h.filesz = 0
      · exact .inl empty
      refine .inr (.inr ?_)
      have first : 0 < h.fileBytes 1 := by
        unfold Elf64Phdr.fileBytes
        omega
      -- the bytes of the first pages end in the file
      have ends : ∀ m < n, h.offset + h.fileBytes (m + 1) ≤ size := by
        intro m less
        induction m with
        | zero =>
            have read := inside 0 less _ ((mem_chunkReads (below 0 less) small _).mpr
              ⟨by rw [fileBytes_zero]; exact first, rfl⟩)
            rw [fileBytes_zero, Nat.add_zero, u64_of_lt offset] at read
            exact read
        | succ m ih =>
            have before := ih (Nat.lt_of_succ_lt less)
            rcases Nat.lt_or_ge (h.fileBytes (m + 1)) (h.fileBytes (m + 2)) with more | done
            · have read := inside (m + 1) less _ ((mem_chunkReads (below (m + 1) less) small _).mpr ⟨more, rfl⟩)
              rw [u64_of_lt (by omega)] at read
              dsimp only at read
              omega
            · exact Nat.le_trans (Nat.add_le_add_left done _) before
      obtain ⟨m, rfl⟩ : ∃ m, n = m + 1 := ⟨n - 1, by omega⟩
      exact ends m (Nat.lt_succ_self m)
    · rintro (empty | large | inside) pg less span member
      · obtain ⟨more, -⟩ := (mem_chunkReads (below pg less) small span).mp member
        unfold Elf64Phdr.fileBytes at more
        omega
      · omega
      · obtain ⟨more, rfl⟩ := (mem_chunkReads (below pg less) small span).mp member
        have last : h.fileBytes (pg + 1) ≤ h.fileBytes n := fileBytes_mono less
        rw [u64_of_lt (by omega)]
        dsimp only
        omega
  · refine ⟨fun _ => .inr (.inl large), fun _ pg less span member => ?_⟩
    rw [Elf64Phdr.chunkReads, chunk_negative (below pg less) large filesz] at member
    exact absurd member List.not_mem_nil

end Segment

/-! ## Files that fit -/

section Fits

variable {data : Memory} {size : Nat} {s : Loading}

theorem loadPage_inside {cr3 : Word} {page_vaddr : Nat} {bytes : Memory} {flags : Word} (inside : s.Inside size)
    (user : page_vaddr + pageSize ≤ userTop) : (loadPage cr3 page_vaddr bytes flags s).2.Inside size := by
  unfold loadPage
  cases pmmAlloc s.vm with
  | none => exact inside
  | some found => exact ⟨inside.reads, List.forall_mem_cons.mpr ⟨user, inside.maps⟩⟩

theorem loadSegmentPage_inside {cr3 : Word} {base pg : Nat} (inside : s.Inside size)
    (user : (elfPhdr data base).pageVaddr pg + pageSize ≤ userTop) (header : base + 48 ≤ size)
    (reads : ∀ span ∈ (elfPhdr data base).chunkReads ((elfPhdr data base).pageVaddr pg), span.1 + span.2 ≤ size) :
    (loadSegmentPage data cr3 base pg s).2.Inside size := by
  have loaded : ∀ bytes flags, (loadPage cr3 ((elfPhdr data base).pageVaddr pg) bytes flags s).2.Inside size :=
    fun bytes flags => loadPage_inside inside user
  unfold loadSegmentPage
  dsimp only
  cases step : loadPage cr3 ((elfPhdr data base).pageVaddr pg) _ (elfPhdr data base).segFlags s with
  | mk ok s' =>
      have loaded := loaded ((elfPhdr data base).pageBytes data ((elfPhdr data base).pageVaddr pg))
        (elfPhdr data base).segFlags
      rw [step] at loaded
      cases ok with
      | false => exact loaded
      | true => exact loaded.read (List.forall_mem_cons.mpr ⟨by omega, reads⟩)

theorem loadSegment_inside {cr3 : Word} {i : Nat} (usize : size < 2 ^ 64) (inside : s.Inside size)
    (typed : phdrBase data i + 4 ≤ size)
    (fits : (elfPhdr data (phdrBase data i)).type = ptLoad →
      phdrBase data i + 48 ≤ size ∧ (elfPhdr data (phdrBase data i)).Fits size) :
    (loadSegment data cr3 i s).2.Inside size := by
  have first : (s.read [(phdrBase data i, 4)]).Inside size := inside.read (List.forall_mem_singleton.mpr typed)
  unfold loadSegment
  dsimp only
  split_ifs with other
  · exact first
  obtain ⟨header, fits⟩ := fits (Decidable.not_not.mp other)
  obtain ⟨vaddr, offset, filesz⟩ := elfPhdr_lt data (phdrBase data i)
  refine rounds_invariant (I := (Loading.Inside size ·)) ?_ (first.read ?_)
  · intro pg member s inside
    have less := List.mem_range.mp member
    rcases fits with none | ⟨low, reads⟩
    · omega
    · have some : 0 < (elfPhdr data (phdrBase data i)).npages := by omega
      exact loadSegmentPage_inside inside ((pages_inside_iff vaddr some).mpr low pg less) header
        ((reads_inside_iff usize offset filesz some low).mpr reads pg less)
  · simp only [List.forall_mem_cons, List.not_mem_nil, false_imp_iff, implies_true, and_true]
    omega

theorem stackPage_inside (sp : Nat) : stackPage sp + pageSize ≤ userTop := by
  have page : procStackTop + pageSize ≤ userTop := by decide
  unfold stackPage
  omega

theorem loadProcess_inside {created : Created} (usize : size < 2 ^ 64) (inside : s.Inside size) (header : 58 ≤ size)
    (fits : ∀ i < (elfHdr data).phnum, phdrBase data i + 4 ≤ size ∧
      ((elfPhdr data (phdrBase data i)).type = ptLoad →
        phdrBase data i + 48 ≤ size ∧ (elfPhdr data (phdrBase data i)).Fits size)) :
    (loadProcess data created s).2.Inside size := by
  have read : (s.read [(56, 2), (54, 2), (32, 8)]).Inside size := inside.read (by
    simp only [List.forall_mem_cons, List.not_mem_nil, false_imp_iff, implies_true, and_true]
    omega)
  have start : Loading.Inside size { s.read [(56, 2), (54, 2), (32, 8)] with vm := created.vm } :=
    ⟨read.reads, read.maps⟩
  have segments : (rounds (loadSegment data created.cr3) (List.range (elfHdr data).phnum)
      { s.read [(56, 2), (54, 2), (32, 8)] with vm := created.vm }).2.Inside size :=
    rounds_invariant (I := (Loading.Inside size ·)) (fun i member _ inside =>
      loadSegment_inside usize inside (fits i (List.mem_range.mp member)).1 (fits i (List.mem_range.mp member)).2) start
  unfold loadProcess
  dsimp only
  cases loop : rounds (loadSegment data created.cr3) (List.range (elfHdr data).phnum) _ with
  | mk ok s' =>
      rw [loop] at segments
      cases ok with
      | false => exact segments
      | true =>
          have stack : (rounds (loadStackPage created.cr3) (List.range' 1 stackPages) s').2.Inside size :=
            rounds_invariant (I := (Loading.Inside size ·))
              (fun sp _ _ inside => loadPage_inside inside (stackPage_inside sp)) segments
          dsimp only at stack ⊢
          cases loop' : rounds (loadStackPage created.cr3) (List.range' 1 stackPages) s' with
          | mk ok s'' =>
              rw [loop'] at stack
              cases ok with
              | false => exact stack
              | true => exact stack

/-- The reads of `elf_verify` are within the bytes of the header that are looked at. -/
theorem verifyReads_inside (header : headerBytes data ≤ size) : ∀ span ∈ verifyReads data, span.1 + span.2 ≤ size := by
  unfold headerBytes at header
  unfold verifyReads
  split_ifs at header ⊢ <;>
    simp only [List.forall_mem_cons, List.not_mem_nil, false_imp_iff, implies_true, and_true] <;> omega

theorem headerBytes_verified (verified : elfVerify data) : headerBytes data = 58 := by
  unfold elfVerify at verified
  obtain ⟨magic, cls, type, machine⟩ := of_decide_eq_true verified
  rw [headerBytes, if_neg (not_not.mpr magic), if_neg (not_not.mpr cls), if_neg (not_not.mpr type),
    if_neg (not_not.mpr machine)]

theorem elfLoad_inside (usize : size < 2 ^ 64) (fits : FileFits data size) (vm : Vm)
    (process_create : Nat → Option Created) : (elfLoad vm process_create data).2.Inside size := by
  have start : Loading.Inside size ⟨vm, verifyReads data, []⟩ :=
    ⟨verifyReads_inside fits.1, fun _ member => absurd member List.not_mem_nil⟩
  unfold elfLoad
  dsimp only
  split_ifs with verified
  · have header := fits.1
    rw [headerBytes_verified verified] at header
    have entry : Loading.Inside size (Loading.read ⟨vm, verifyReads data, []⟩ [(24, 8)]) :=
      start.read (List.forall_mem_singleton.mpr (by omega : 24 + 8 ≤ size))
    cases process_create (elfHdr data).entry with
    | none => exact entry
    | some created => exact loadProcess_inside usize entry header (fits.2 verified)
  · exact start

end Fits

/-! ## Runs with enough memory -/

/-- What was noted before is noted still. -/
structure Loading.Grows (s s' : Loading) : Prop where
  reads : ∀ span ∈ s.reads, span ∈ s'.reads
  maps : ∀ page ∈ s.maps, page ∈ s'.maps

namespace Loading.Grows

variable {s s' s'' : Loading}

theorem refl (s : Loading) : s.Grows s := ⟨fun _ => id, fun _ => id⟩

theorem trans (first : s.Grows s') (second : s'.Grows s'') : s.Grows s'' :=
  ⟨fun span member => second.reads span (first.reads span member),
    fun page member => second.maps page (first.maps page member)⟩

theorem read (s : Loading) (spans : List Span) : s.Grows (s.read spans) :=
  ⟨fun _ member => List.mem_append_right _ member, fun _ => id⟩

end Loading.Grows

section Rounds

variable {body : Nat → Loading → Bool × Loading}

theorem rounds_grows (grows : ∀ i (s : Loading), s.Grows (body i s).2) (is : List Nat) (s : Loading) :
    s.Grows (rounds body is s).2 := by
  induction is generalizing s with
  | nil => exact .refl s
  | cons i is ih =>
      cases done : (body i s).1 with
      | true =>
          rw [rounds_cons_true done]
          exact (grows i s).trans (ih _)
      | false =>
          rw [rounds_cons_false done]
          exact grows i s

/-- A loop that comes to its end has done every round. -/
theorem rounds_records (grows : ∀ i (s : Loading), s.Grows (body i s).2) {is : List Nat} {s : Loading}
    (finished : (rounds body is s).1 = true) {i : Nat} (member : i ∈ is) :
    ∃ s', (body i s').1 = true ∧ (body i s').2.Grows (rounds body is s).2 := by
  induction is generalizing s with
  | nil => exact absurd member List.not_mem_nil
  | cons j is ih =>
      cases done : (body j s).1 with
      | true =>
          rw [rounds_cons_true done] at finished ⊢
          rcases List.mem_cons.mp member with rfl | later
          · exact ⟨s, done, rounds_grows grows is _⟩
          · exact ih finished later
      | false =>
          rw [rounds_cons_false done] at finished
          cases finished

/-- Pages `pmm_alloc` has left. -/
def Loading.left (s : Loading) : Nat := s.vm.supply.length

/-- With enough pages a loop comes to its end. -/
theorem rounds_finish {cost : Nat → Nat} {is : List Nat}
    (pays : ∀ i ∈ is, ∀ s, cost i ≤ s.left → (body i s).1 = true ∧ s.left ≤ (body i s).2.left + cost i) {s : Loading}
    (enough : (is.map cost).sum ≤ s.left) :
    (rounds body is s).1 = true ∧ s.left ≤ (rounds body is s).2.left + (is.map cost).sum := by
  induction is generalizing s with
  | nil => exact ⟨rfl, Nat.le_refl _⟩
  | cons i is ih =>
      rw [List.map_cons, List.sum_cons] at enough ⊢
      obtain ⟨done, paid⟩ := pays i List.mem_cons_self s (by omega)
      rw [rounds_cons_true done]
      obtain ⟨finished, rest⟩ :=
        ih (fun j member => pays j (List.mem_cons_of_mem i member)) (s := (body i s).2) (by omega)
      exact ⟨finished, by omega⟩

end Rounds

/-! ### Pages an allocation needs -/

theorem nextTable_left (vm : Vm) (t : Word) (i : Index) (alloc : Bool) :
    vm.supply.length ≤ (nextTable vm t i alloc).2.supply.length + 1 := by
  unfold nextTable pmmAlloc
  cases supply : vm.supply with
  | nil => split_ifs <;> simp
  | cons p rest => split_ifs <;> simp [Vm.setEntry, supply]

theorem splitHuge_left (vm : Vm) (pd : Word) (i : Index) :
    vm.supply.length ≤ (splitHuge vm pd i).2.supply.length + 1 := by
  unfold splitHuge pmmAlloc
  cases vm.supply <;> simp [Vm.setEntry]

theorem pteGet_left (vm : Vm) (cr3 virt : Word) :
    vm.supply.length ≤ (pteGet vm cr3 virt true).2.supply.length + 3 := by
  have first := nextTable_left vm cr3 (i4 virt) true
  unfold pteGet
  cases get4 : nextTable vm cr3 (i4 virt) true with | mk r4 vm4 =>
  rw [get4] at first
  dsimp only at first
  cases r4 with
  | none => exact Nat.le_add_right_of_le (k := 2) first
  | some pdpt =>
    have second := nextTable_left vm4 pdpt (i3 virt) true
    dsimp only
    cases get3 : nextTable vm4 pdpt (i3 virt) true with | mk r3 vm3 =>
    rw [get3] at second
    dsimp only at second
    cases r3 with
    | none =>
      dsimp only
      omega
    | some pd =>
      have third : vm3.supply.length ≤ (if huge (vm3.mem pd (i2 virt)) = true then
          if true = true then splitHuge vm3 pd (i2 virt) else (none, vm3)
        else nextTable vm3 pd (i2 virt) true).2.supply.length + 1 := by
        rw [if_pos rfl]
        split
        · exact splitHuge_left vm3 pd (i2 virt)
        · exact nextTable_left vm3 pd (i2 virt) true
      dsimp only
      generalize (if huge (vm3.mem pd (i2 virt)) = true then
          if true = true then splitHuge vm3 pd (i2 virt) else (none, vm3)
        else nextTable vm3 pd (i2 virt) true) = last at third ⊢
      obtain ⟨r2, vm2⟩ := last
      cases r2 <;> dsimp only at third ⊢ <;> omega

theorem vmmMap_left (vm : Vm) (cr3 virt phys flags : Word) :
    vm.supply.length ≤ (vmmMap vm cr3 virt phys flags).supply.length + 3 := by
  have walked := pteGet_left vm cr3 virt
  unfold vmmMap
  cases get : pteGet vm cr3 virt true with | mk result vm' =>
  rw [get] at walked
  cases result with
  | none => exact walked
  | some cell => exact walked

/-- A page and up to three tables. -/
theorem loadPage_pays {cr3 : Word} {page_vaddr : Nat} {bytes : Memory} {flags : Word} {s : Loading}
    (enough : 4 ≤ s.left) : (loadPage cr3 page_vaddr bytes flags s).1 = true ∧
      s.left ≤ (loadPage cr3 page_vaddr bytes flags s).2.left + 4 := by
  unfold Loading.left at enough ⊢
  unfold loadPage pmmAlloc
  cases supply : s.vm.supply with
  | nil =>
      rw [supply] at enough
      exact absurd enough (by simp)
  | cons phys rest =>
      refine ⟨rfl, ?_⟩
      have mapped := vmmMap_left (Vm.setPage { s.vm with
        mem := Function.update s.vm.mem phys fun _ => 0
        supply := rest
        refcnt := Function.update s.vm.refcnt phys 1 } phys (pageWords bytes)) cr3 (.ofNat 64 page_vaddr) phys flags
      have length : (phys :: rest).length = rest.length + 1 := rfl
      dsimp only [Vm.setPage] at mapped ⊢
      omega

theorem loadPage_grows {cr3 : Word} {page_vaddr : Nat} {bytes : Memory} {flags : Word} (s : Loading) :
    s.Grows (loadPage cr3 page_vaddr bytes flags s).2 := by
  unfold loadPage
  cases pmmAlloc s.vm with
  | none => exact .refl s
  | some found => exact ⟨fun _ => id, fun _ member => List.mem_cons_of_mem _ member⟩

theorem loadPage_maps {cr3 : Word} {page_vaddr : Nat} {bytes : Memory} {flags : Word} {s : Loading}
    (done : (loadPage cr3 page_vaddr bytes flags s).1 = true) :
    page_vaddr ∈ (loadPage cr3 page_vaddr bytes flags s).2.maps := by
  unfold loadPage at done ⊢
  cases found : pmmAlloc s.vm with
  | none =>
      rw [found] at done
      cases done
  | some found => exact List.mem_cons_self

section Records

variable {data : Memory} {cr3 : Word}

/-- The page that a round loads. -/
def loadPageOf (data : Memory) (cr3 : Word) (base pg : Nat) (s : Loading) : Bool × Loading :=
  loadPage cr3 ((elfPhdr data base).pageVaddr pg)
    ((elfPhdr data base).pageBytes data ((elfPhdr data base).pageVaddr pg)) (elfPhdr data base).segFlags s

/-- What a round reads after it. -/
def pageReads (data : Memory) (base pg : Nat) : List Span :=
  (base + 4, 4) :: (elfPhdr data base).chunkReads ((elfPhdr data base).pageVaddr pg)

theorem loadSegmentPage_eq (base pg : Nat) (s : Loading) : loadSegmentPage data cr3 base pg s =
    ((loadPageOf data cr3 base pg s).1, if (loadPageOf data cr3 base pg s).1 = true then
      (loadPageOf data cr3 base pg s).2.read (pageReads data base pg) else (loadPageOf data cr3 base pg s).2) := by
  unfold loadSegmentPage loadPageOf pageReads
  dsimp only
  generalize loadPage cr3 _ _ _ s = result
  obtain ⟨ok, s'⟩ := result
  cases ok <;> rfl

theorem loadSegmentPage_grows (base pg : Nat) (s : Loading) : s.Grows (loadSegmentPage data cr3 base pg s).2 := by
  have grows : s.Grows (loadPageOf data cr3 base pg s).2 := loadPage_grows s
  rw [loadSegmentPage_eq]
  dsimp only
  split_ifs
  · exact grows.trans (.read _ _)
  · exact grows

theorem loadSegmentPage_pays (base pg : Nat) {s : Loading} (enough : 4 ≤ s.left) :
    (loadSegmentPage data cr3 base pg s).1 = true ∧ s.left ≤ (loadSegmentPage data cr3 base pg s).2.left + 4 := by
  have pays : (loadPageOf data cr3 base pg s).1 = true ∧ s.left ≤ (loadPageOf data cr3 base pg s).2.left + 4 :=
    loadPage_pays enough
  rw [loadSegmentPage_eq]
  dsimp only
  rw [if_pos pays.1]
  exact pays

/-- A round that is done has mapped its page and noted its reads. -/
theorem loadSegmentPage_records {base pg : Nat} {s : Loading} (done : (loadSegmentPage data cr3 base pg s).1 = true) :
    (elfPhdr data base).pageVaddr pg ∈ (loadSegmentPage data cr3 base pg s).2.maps ∧
      ∀ span ∈ (elfPhdr data base).chunkReads ((elfPhdr data base).pageVaddr pg),
        span ∈ (loadSegmentPage data cr3 base pg s).2.reads := by
  rw [loadSegmentPage_eq] at done ⊢
  dsimp only at done ⊢
  rw [if_pos done]
  have mapped : (elfPhdr data base).pageVaddr pg ∈ (loadPageOf data cr3 base pg s).2.maps := loadPage_maps done
  exact ⟨mapped, fun span member => List.mem_append_left _ (List.mem_cons_of_mem _ member)⟩

/-! ### Segments -/

/-- Pages a segment needs, with tables. -/
def segmentCost (data : Memory) (i : Nat) : Nat :=
  ((List.range (elfPhdr data (phdrBase data i)).npages).map fun _ => 4).sum

/-- The state in which the pages of a segment are loaded. -/
def segmentStart (data : Memory) (i : Nat) (s : Loading) : Loading :=
  (s.read [(phdrBase data i, 4)]).read
    [(phdrBase data i + 16, 8), (phdrBase data i + 40, 8), (phdrBase data i + 32, 8), (phdrBase data i + 8, 8)]

theorem loadSegment_load {i : Nat} (isLoad : (elfPhdr data (phdrBase data i)).type = ptLoad) (s : Loading) :
    loadSegment data cr3 i s = rounds (loadSegmentPage data cr3 (phdrBase data i))
      (List.range (elfPhdr data (phdrBase data i)).npages) (segmentStart data i s) := by
  unfold loadSegment
  dsimp only
  rw [if_neg (not_not.mpr isLoad)]
  rfl

theorem loadSegment_other {i : Nat} (other : (elfPhdr data (phdrBase data i)).type ≠ ptLoad) (s : Loading) :
    loadSegment data cr3 i s = (true, s.read [(phdrBase data i, 4)]) := by
  unfold loadSegment
  dsimp only
  rw [if_pos other]

theorem loadSegment_grows (i : Nat) (s : Loading) :
    (s.read [(phdrBase data i, 4)]).Grows (loadSegment data cr3 i s).2 := by
  by_cases isLoad : (elfPhdr data (phdrBase data i)).type = ptLoad
  · rw [loadSegment_load isLoad]
    exact Loading.Grows.trans (.read _ _) (rounds_grows (loadSegmentPage_grows (phdrBase data i)) _ _)
  · rw [loadSegment_other isLoad]
    exact .refl _

theorem loadSegment_pays (i : Nat) {s : Loading} (enough : segmentCost data i ≤ s.left) :
    (loadSegment data cr3 i s).1 = true ∧ s.left ≤ (loadSegment data cr3 i s).2.left + segmentCost data i := by
  by_cases isLoad : (elfPhdr data (phdrBase data i)).type = ptLoad
  · rw [loadSegment_load isLoad]
    exact rounds_finish (fun pg _ _ enough => loadSegmentPage_pays (phdrBase data i) pg enough) enough
  · rw [loadSegment_other isLoad]
    exact ⟨rfl, Nat.le_add_right _ _⟩

end Records

/-! ## Files that do not fit -/

section Needed

variable {data : Memory} {size : Nat}

/-- A machine with this many free pages from `RAM_START` on, and a new process. -/
def roomy (pages : Nat) : Created where
  pid := 1
  cr3 := 0x1000
  vm := ⟨fun _ _ => 0, (List.range pages).map fun i => .ofNat 64 (Systrix.ramStart + i * pageSize), fun _ => 0, 0, [],
    fun _ => 0⟩

/-- All program headers are done when there are enough pages. -/
theorem loadProcess_finish (data : Memory) (s : Loading) :
    let created := roomy ((List.range (elfHdr data).phnum).map (segmentCost data)).sum
    (s.read [(56, 2), (54, 2), (32, 8)]).Grows (loadProcess data created s).2 ∧
      ∀ i < (elfHdr data).phnum, ∃ s', (loadSegment data 0x1000 i s').1 = true ∧
        (loadSegment data 0x1000 i s').2.Grows (loadProcess data created s).2 := by
  intro created
  generalize start : { s.read [(56, 2), (54, 2), (32, 8)] with vm := created.vm } = s₀
  have grows : ∀ i (s : Loading), s.Grows (loadSegment data 0x1000 i s).2 := fun i s =>
    Loading.Grows.trans (.read s _) (loadSegment_grows i s)
  have begins : (s.read [(56, 2), (54, 2), (32, 8)]).Grows s₀ := by
    rw [← start]
    exact ⟨fun _ => id, fun _ => id⟩
  have left : s₀.left = ((List.range (elfHdr data).phnum).map (segmentCost data)).sum := by
    rw [← start]
    exact (List.length_map _).trans List.length_range
  have finished : (rounds (loadSegment data 0x1000) (List.range (elfHdr data).phnum) s₀).1 = true :=
    (rounds_finish (fun i _ _ => loadSegment_pays i) left.ge).1
  have stack : (rounds (loadSegment data 0x1000) (List.range (elfHdr data).phnum) s₀).2.Grows
      (loadProcess data created s).2 := by
    unfold loadProcess
    dsimp only
    rw [start]
    have root : created.cr3 = 0x1000 := rfl
    rw [root]
    cases loop : rounds (loadSegment data 0x1000) (List.range (elfHdr data).phnum) s₀ with
    | mk ok s₁ =>
        rw [loop] at finished
        subst finished
        have more : s₁.Grows (rounds (loadStackPage 0x1000) (List.range' 1 stackPages) s₁).2 :=
          rounds_grows (fun _ s => loadPage_grows s) _ _
        dsimp only
        cases loop' : rounds (loadStackPage 0x1000) (List.range' 1 stackPages) s₁ with
        | mk ok s₂ =>
            rw [loop'] at more
            cases ok with
            | false => exact more
            | true => exact more
  refine ⟨(begins.trans (rounds_grows grows _ _)).trans stack, fun i less => ?_⟩
  obtain ⟨s', done, recorded⟩ := rounds_records grows finished (List.mem_range.mpr less)
  exact ⟨s', done, recorded.trans stack⟩

theorem headerBytes_le (reads : ∀ span ∈ verifyReads data, span.1 + span.2 ≤ size)
    (verified : elfVerify data → 58 ≤ size) :
    headerBytes data ≤ size := by
  unfold verifyReads at reads
  unfold headerBytes
  split_ifs at reads ⊢ with magic cls type machine
  · exact reads (0, 4) List.mem_cons_self
  · exact reads (4, 1) (by simp)
  · exact reads (16, 2) (by simp)
  · exact reads (18, 2) (by simp)
  · refine verified (decide_eq_true ?_)
    exact ⟨not_not.mp magic, not_not.mp cls, not_not.mp type, not_not.mp machine⟩

/-- What a segment of a file needs, read off the run in which it is loaded. -/
theorem segment_fits (usize : size < 2 ^ 64) {final : Loading} (inside : final.Inside size) {i : Nat} {s : Loading}
    (done : (loadSegment data 0x1000 i s).1 = true) (grows : (loadSegment data 0x1000 i s).2.Grows final) :
    phdrBase data i + 4 ≤ size ∧ ((elfPhdr data (phdrBase data i)).type = ptLoad →
      phdrBase data i + 48 ≤ size ∧ (elfPhdr data (phdrBase data i)).Fits size) := by
  obtain ⟨vaddr, offset, filesz⟩ := elfPhdr_lt data (phdrBase data i)
  have whole : (s.read [(phdrBase data i, 4)]).Grows final := (loadSegment_grows i s).trans grows
  refine ⟨inside.reads _ (whole.reads (phdrBase data i, 4) (by simp [Loading.read])), fun isLoad => ?_⟩
  rw [loadSegment_load isLoad] at done grows
  have pages := fun pg less => rounds_records (loadSegmentPage_grows (phdrBase data i)) done (List.mem_range.mpr less)
    (i := pg)
  have start : (segmentStart data i s).Grows final :=
    Loading.Grows.trans (rounds_grows (loadSegmentPage_grows (phdrBase data i)) _ _) grows
  have last := inside.reads _ (start.reads (phdrBase data i + 40, 8) (by simp [segmentStart, Loading.read]))
  refine ⟨last, ?_⟩
  rcases Nat.eq_zero_or_pos (elfPhdr data (phdrBase data i)).npages with none | some
  · exact .inl none
  have low : (elfPhdr data (phdrBase data i)).vbase + (elfPhdr data (phdrBase data i)).npages * pageSize ≤ userTop := by
    refine (pages_inside_iff vaddr some).mp fun pg less => ?_
    obtain ⟨s', done', grows'⟩ := pages pg less
    exact inside.maps _ ((grows'.trans grows).maps _ (loadSegmentPage_records done').1)
  refine .inr ⟨low, (reads_inside_iff usize offset filesz some low).mp fun pg less span member => ?_⟩
  obtain ⟨s', done', grows'⟩ := pages pg less
  exact inside.reads _ ((grows'.trans grows).reads _ ((loadSegmentPage_records done').2 span member))

theorem fits_of_inside (usize : size < 2 ^ 64)
    (inside : ∀ vm process_create, (elfLoad vm process_create data).2.Inside size) : FileFits data size := by
  have blank : Vm := ⟨fun _ _ => 0, [], fun _ => 0, 0, [], fun _ => 0⟩
  have run := inside blank fun _ => some (roomy ((List.range (elfHdr data).phnum).map (segmentCost data)).sum)
  unfold elfLoad at run
  dsimp only at run
  cases verified : elfVerify data with
  | false =>
      rw [verified] at run
      have unverified : ¬elfVerify data := Bool.eq_false_iff.mp verified
      exact ⟨headerBytes_le run.reads fun isVerified => absurd isVerified unverified,
        fun isVerified => absurd isVerified unverified⟩
  | true =>
      rw [if_pos verified] at run
      obtain ⟨grows, segments⟩ := loadProcess_finish data
        (Loading.read ⟨blank, verifyReads data, []⟩ [(24, 8)])
      have header : 58 ≤ size := run.reads _ (grows.reads (56, 2) (by simp [Loading.read]))
      refine ⟨headerBytes_le (fun span member => run.reads span (grows.reads span ?_)) fun _ => header,
        fun _ i less => ?_⟩
      · simp [Loading.read, member]
      · obtain ⟨s', done, recorded⟩ := segments i less
        exact segment_fits usize run done recorded

/-- `elf_load` reads inside the file and maps inside the user range, whatever memory it gets,
exactly for the files that fit. -/
theorem elfLoad_inside_iff (data : Memory) {size : Nat} (usize : size < 2 ^ 64) :
    (∀ vm process_create, (elfLoad vm process_create data).2.Inside size) ↔ FileFits data size :=
  ⟨fits_of_inside usize, fun fits => elfLoad_inside usize fits⟩

end Needed

/-! ## A file -/

/-- An executable with one segment: 8 bytes of the file at offset 120, and 8 zero bytes. -/
def oneSegment : Memory := fun i =>
  [0x7f, 0x45, 0x4c, 0x46, 2, 1, 1, 0, 0, 0, 0, 0, 0, 0, 0, 0, 2, 0, 62, 0, 1, 0, 0, 0, 0, 0, 0x40, 0, 0, 0, 0, 0,
    64, 0, 0, 0, 0, 0, 0, 0, 0, 0, 0, 0, 0, 0, 0, 0, 0, 0, 0, 0, 64, 0, 56, 0, 1, 0, 0, 0, 0, 0, 0, 0,
    1, 0, 0, 0, 5, 0, 0, 0, 120, 0, 0, 0, 0, 0, 0, 0, 0, 0, 0x40, 0, 0, 0, 0, 0, 0, 0, 0x40, 0, 0, 0, 0, 0,
    8, 0, 0, 0, 0, 0, 0, 0, 16, 0, 0, 0, 0, 0, 0, 0, 0, 16, 0, 0, 0, 0, 0, 0,
    1, 2, 3, 4, 5, 6, 7, 8].getD i 0

theorem elfLoad_inside_iff_oneSegment :
    (∀ vm process_create, (elfLoad vm process_create oneSegment).2.Inside 128) ↔ FileFits oneSegment 128 :=
  elfLoad_inside_iff oneSegment (by decide)

/-- Of the header alone the program header behind it is read all the same. -/
theorem elfLoad_truncated : ¬∀ vm process_create, (elfLoad vm process_create oneSegment).2.Inside 64 := by
  intro inside
  have fits := (fits_of_inside (by decide) inside).2 (by decide +kernel) 0 (by decide +kernel)
  have outside : ¬phdrBase oneSegment 0 + 4 ≤ 64 := by decide +kernel
  exact outside fits.1

end Systrix.Elf
