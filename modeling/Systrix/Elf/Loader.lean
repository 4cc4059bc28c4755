import Systrix.Vmm.Contents

/-!
# ELF loader

`elf_load` of `kernel/elf.c`.  The file is bytes by their offset from `data`; what
is read of it and which pages are mapped is noted.
-/

namespace Systrix.Elf

open ByteMemory Machine Vmm

def elfMagic : Nat := 0x464C457F

def elfClass64 : Nat := 2

def etExec : Nat := 2

/-- `EM_X86_64` -/
def emX86_64 : Nat := 62

def ptLoad : Nat := 1

def pfW : Nat := 2

def procStackTop : Nat := 0x700000

/-- Pages of the user stack. -/
def stackPages : Nat := 32

/-! ## Headers -/

/-- `Elf64Hdr`, the fields the loader reads. -/
structure Elf64Hdr where
  magic : Nat
  cls : Nat
  type : Nat
  machine : Nat
  entry : Nat
  phoff : Nat
  phentsize : Nat
  phnum : Nat

/-- The header at the start of a file. -/
def elfHdr (data : Memory) : Elf64Hdr where
  magic := load data 0 4
  cls := load data 4 1
  type := load data 16 2
  machine := load data 18 2
  entry := load data 24 8
  phoff := load data 32 8
  phentsize := load data 54 2
  phnum := load data 56 2

/-- `Elf64Phdr`, the fields the loader reads. -/
structure Elf64Phdr where
  type : Nat
  flags : Nat
  offset : Nat
  vaddr : Nat
  filesz : Nat
  memsz : Nat
  deriving DecidableEq

/-- Bytes by their distance from `data`; pointers wrap around. -/
def around (data : Memory) : Memory := fun offset => data (u64 offset)

/-- The program header at an offset. -/
def elfPhdr (data : Memory) (base : Nat) : Elf64Phdr where
  type := load (around data) base 4
  flags := load (around data) (base + 4) 4
  offset := load (around data) (base + 8) 8
  vaddr := load (around data) (base + 16) 8
  filesz := load (around data) (base + 32) 8
  memsz := load (around data) (base + 40) 8

/-- Offset of program header `i`. -/
def phdrBase (data : Memory) (i : Nat) : Nat := u64 ((elfHdr data).phoff + i * (elfHdr data).phentsize)

def elfVerify (data : Memory) : Bool :=
  (elfHdr data).magic = elfMagic ∧ (elfHdr data).cls = elfClass64 ∧ (elfHdr data).type = etExec ∧
    (elfHdr data).machine = emX86_64

/-- An offset in the file and a number of bytes. -/
abbrev Span := Nat × Nat

/-- What `elf_verify` reads; the first test that fails is the last. -/
def verifyReads (data : Memory) : List Span :=
  (0, 4) :: if (elfHdr data).magic ≠ elfMagic then [] else
    (4, 1) :: if (elfHdr data).cls ≠ elfClass64 then [] else
      (16, 2) :: if (elfHdr data).type ≠ etExec then [] else [(18, 2)]

/-! ## Segments -/

/-- A `u64` as an `i64`. -/
def i64 (value : Nat) : Int := if value < 2 ^ 63 then value else value - 2 ^ 64

namespace Elf64Phdr

variable (h : Elf64Phdr)

def vbase : Nat := alignDown h.vaddr pageSize

def vtop : Nat := alignDown (u64 (h.vaddr + h.memsz + pageSize - 1)) pageSize

def npages : Nat := sub64 h.vtop h.vbase / pageSize

def pageVaddr (pg : Nat) : Nat := u64 (h.vbase + pg * pageSize)

def segFlags : Word :=
  if h.flags &&& pfW ≠ 0 then ptePresent ||| pteUser ||| pteWrite ||| pteNx else ptePresent ||| pteUser

/-- Bytes of the file that go into a page. -/
structure Chunk where
  copy_start : Nat
  src_start : Nat
  copy_len : Nat

/-- The arguments of `memcpy` for a page, when it is called. -/
def chunk (page_vaddr : Nat) : Option Chunk :=
  let seg_off := i64 (sub64 page_vaddr h.vaddr)
  if seg_off < i64 h.filesz ∧ 0 < seg_off + pageSize then
    let copy_start := if seg_off < 0 then -seg_off else 0
    let src_start := if seg_off < 0 then 0 else seg_off
    let copy_len := min (pageSize - copy_start) (i64 h.filesz - src_start)
    if 0 < copy_len then some ⟨copy_start.toNat, src_start.toNat, copy_len.toNat⟩ else none
  else none

/-- Where the bytes of a page are read. -/
def chunkReads (page_vaddr : Nat) : List Span :=
  match h.chunk page_vaddr with
  | none => []
  | some c => [(u64 (h.offset + c.src_start), c.copy_len)]

/-- The bytes of a page: zero where no byte of the file goes. -/
def pageBytes (data : Memory) (page_vaddr : Nat) : Memory := fun k =>
  match h.chunk page_vaddr with
  | none => 0
  | some c =>
      if c.copy_start ≤ k ∧ k < c.copy_start + c.copy_len then
        around data (u64 (h.offset + c.src_start) + (k - c.copy_start))
      else 0

end Elf64Phdr

/-! ## Loading -/

/-- Memory, and what was read of the file and mapped so far, the last one first. -/
structure Loading where
  vm : Vm
  reads : List Span
  maps : List Nat

/-- The bytes are read. -/
def Loading.read (s : Loading) (spans : List Span) : Loading := { s with reads := spans ++ s.reads }

/-- A page with these bytes is allocated and mapped; `false` when there is none. -/
def loadPage (cr3 : Word) (page_vaddr : Nat) (bytes : Memory) (flags : Word) (s : Loading) : Bool × Loading :=
  match pmmAlloc s.vm with
  | none => (false, s)
  | some (phys, vm) =>
      (true, { s with
        vm := vmmMap (vm.setPage phys (pageWords bytes)) cr3 (.ofNat 64 page_vaddr) phys flags
        maps := page_vaddr :: s.maps })

/-- A loop that ends when a round fails. -/
def rounds (body : Nat → Loading → Bool × Loading) : List Nat → Loading → Bool × Loading
  | [], s => (true, s)
  | i :: is, s =>
      match body i s with
      | (false, s) => (false, s)
      | (true, s) => rounds body is s

/-- A round of the loop over the pages of a segment. -/
def loadSegmentPage (data : Memory) (cr3 : Word) (base pg : Nat) (s : Loading) : Bool × Loading :=
  let h := elfPhdr data base
  match loadPage cr3 (h.pageVaddr pg) (h.pageBytes data (h.pageVaddr pg)) h.segFlags s with
  | (false, s) => (false, s)
  | (true, s) => (true, s.read ((base + 4, 4) :: h.chunkReads (h.pageVaddr pg)))

/-- A round of the loop over the program headers. -/
def loadSegment (data : Memory) (cr3 : Word) (i : Nat) (s : Loading) : Bool × Loading :=
  let base := phdrBase data i
  let h := elfPhdr data base
  let s := s.read [(base, 4)]
  if h.type ≠ ptLoad then (true, s)
  else
    let s := s.read [(base + 16, 8), (base + 40, 8), (base + 32, 8), (base + 8, 8)]
    rounds (loadSegmentPage data cr3 base) (List.range h.npages) s

/-- A page of the stack. -/
def stackPage (sp : Nat) : Nat := procStackTop - sp * pageSize

/-- `PTE_USER_RW | PTE_NX` -/
def stackFlags : Word := ptePresent ||| pteUser ||| pteWrite ||| pteNx

/-- A round of the loop over the pages of the stack. -/
def loadStackPage (cr3 : Word) (sp : Nat) (s : Loading) : Bool × Loading :=
  loadPage cr3 (stackPage sp) (fun _ => 0) stackFlags s

/-- The process that `process_create` made and `elf_load` found in the table: its number, its
space and the memory then. -/
structure Created where
  pid : Nat
  cr3 : Word
  vm : Vm

/-- The rest of `elf_load` when the process is there. -/
def loadProcess (data : Memory) (created : Created) (s : Loading) : Int × Loading :=
  let s := { s.read [(56, 2), (54, 2), (32, 8)] with vm := created.vm }
  match rounds (loadSegment data created.cr3) (List.range (elfHdr data).phnum) s with
  | (false, s) => (-1, s)
  | (true, s) =>
      match rounds (loadStackPage created.cr3) (List.range' 1 stackPages) s with
      | (false, s) => (-1, s)
      | (true, s) => (created.pid, s)

/-- `elf_load`; `process_create` makes the process, or fails. -/
def elfLoad (vm : Vm) (process_create : Nat → Option Created) (data : Memory) : Int × Loading :=
  let s : Loading := ⟨vm, verifyReads data, []⟩
  if elfVerify data then
    let s := s.read [(24, 8)]
    match process_create (elfHdr data).entry with
    | none => (-1, s)
    | some created => loadProcess data created s
  else (-1, s)

end Systrix.Elf
