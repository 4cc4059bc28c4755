import Systrix.Vmm.Escalation
import Systrix.Vmm.MappedRanges

/-!
# Changing the protection of pages

`sys_mprotect` of `kernel/syscall.c`: what it makes of the entries of the pages and of the VMA table, and when that is
what was asked for.
-/

namespace Systrix.Vmm

/-! ## The call -/

/-- The flags of a VMA after `sys_mprotect`; the bits of `prot` are `PROT_READ`, `PROT_WRITE` and `PROT_EXEC`. -/
def protFlags (prot : Word) (flags : BitVec 32) : BitVec 32 :=
  flags &&& ~~~(vmaRead ||| vmaWrite ||| vmaExec) |||
    (if prot.getLsbD 0 then vmaRead else 0) |||
    (if prot.getLsbD 1 then vmaWrite else 0) |||
    (if prot.getLsbD 2 then vmaExec else 0)

/-- The loop of `sys_mprotect` over the VMA table. -/
def protectVmas (table : List VmaEntry) (addr stop prot : Word) : List VmaEntry :=
  table.map fun vma => if vma.overlaps addr stop then { vma with flags := protFlags prot vma.flags } else vma

/-- The flags `sys_mprotect` gives an entry. -/
def protBits (prot : Word) : Word :=
  if prot.getLsbD 1 then ptePresent ||| pteUser ||| pteWrite else ptePresent ||| pteUser

/-- What the loop of `sys_mprotect` does for one page. -/
def protectPage (cr3 prot va : Word) (vm : Vm) : Vm :=
  match pteGet vm cr3 va false with
  | (none, vm) => vm
  | (some (pt, i), vm) =>
      if present (vm.mem pt i) then vm.setEntry pt i (frame (vm.mem pt i) ||| protBits prot) else vm

/-- The loop of `sys_mprotect` over the pages from `va` on. -/
def protectUp (cr3 prot : Word) : (left : Nat) → (va : Word) → Vm → Vm
  | 0, _, vm => vm
  | left + 1, va, vm => protectUp cr3 prot left (va + 0x1000) (protectPage cr3 prot va vm)

def sysMprotect (p : UserProcess) (addr len prot : Word) : Word × UserProcess :=
  if addr &&& 0xfff ≠ 0 then (errno einval, p)
  else
    let len := pageUp len
    if len = 0 then (0, p)
    else
      let stop := addr + len
      (0, { p with
        vmas := p.vmas.map fun table => protectVmas table addr stop prot
        vm := protectUp p.cr3 prot ((stop.toNat - addr.toNat) / 4096) addr p.vm })

/-! ## Access -/

/-- What ring 3 may do with a page. -/
structure Access where
  read : Bool
  write : Bool
  exec : Bool
  deriving DecidableEq

/-- The access that is asked for. -/
def Access.ofProt (prot : Word) : Access := ⟨prot.getLsbD 0, prot.getLsbD 1, prot.getLsbD 2⟩

/-- The access the flags of a VMA tell. -/
def Access.ofFlags (flags : BitVec 32) : Access := ⟨flags.getLsbD 0, flags.getLsbD 1, flags.getLsbD 2⟩

/-- The access that permissions leave. -/
def Perms.access (perms : Perms) : Access := ⟨perms.ring3, perms.ring3 && perms.write, perms.ring3 && !perms.nx⟩

/-- The access to a page that a fault brings in. -/
def demandAccess (p : UserProcess) (v : Word) : Option Access :=
  (vmmFindVma p.table v).map fun vma => ((above p.vm.mem p.cr3 v).and (.ofEntry (demandFlags vma))).access

/-- An address the processor translates. -/
def Canonical (v : Word) : Prop := v.toNat < 2 ^ 47 ∨ 2 ^ 64 - 2 ^ 47 ≤ v.toNat

/-- What a change of the protection of a range has to do. -/
structure Protects (p p' : UserProcess) (addr len prot : Word) : Prop where
  resident : ∀ v m, Canonical v → InRange addr len.toNat v → walk p.vm.mem p.cr3 v = some m →
    ∃ m', walk p'.vm.mem p'.cr3 v = some m' ∧ m'.frame = m.frame ∧ m'.perms.access = .ofProt prot
  demand : ∀ v access, Canonical v → InRange addr len.toNat v → demandAccess p' v = some access → access = .ofProt prot
  flags : ∀ v, ¬InRange addr len.toNat v → (vmmFindVma p'.table v).map Vma.flags = (vmmFindVma p.table v).map Vma.flags
  entries : ∀ v, Canonical v → ¬InRange addr len.toNat v → walk p'.vm.mem p'.cr3 v = walk p.vm.mem p.cr3 v

/-! ## A fault -/

/-- A page that a fault brings in gets this access. -/
theorem vmmPageFault_access {p : UserProcess} {fault : Fault} {vm : Vm} (tree : Tree p.vm p.cr3)
    (absent : fault.isProt = false)
    (handled : vmmPageFault p.vm (some ⟨p.cr3, p.vmas.map fun table => table.map VmaEntry.toVma⟩) fault = (true, vm)) :
    ∃ access, demandAccess p fault.addr = some access ∧ ∀ m, walk p.vm.mem p.cr3 fault.addr = none →
      walk vm.mem p.cr3 fault.addr = some m → m.perms.access = access := by
  have samePath : path fault.page = path fault.addr := path_page fault.addr
  simp only [path, List.cons.injEq, and_true] at samePath
  obtain ⟨same1, same2, same3, same4⟩ := samePath
  unfold vmmPageFault at handled
  rw [absent] at handled
  cases hasTable : p.vmas with
  | none =>
      rw [hasTable] at handled
      cases handled
  | some table =>
      have vmas : p.table = table.map VmaEntry.toVma := by rw [UserProcess.table, hasTable, Option.getD_some]
      simp only [hasTable, Option.map_some, Bool.false_and, Bool.false_eq_true, if_false, ← vmas] at handled
      unfold demandAccess
      cases found : vmmFindVma p.table fault.addr with
      | none =>
          rw [found] at handled
          cases handled
      | some vma =>
          refine ⟨_, rfl, fun m none isMapped => ?_⟩
          rw [found] at handled
          dsimp only at handled
          cases supply : p.vm.supply with
          | nil =>
              rw [mapNew, pmmAlloc, supply] at handled
              cases handled
          | cons phys rest =>
              rw [mapNew_eq supply] at handled
              obtain rfl := (Prod.mk.inj handled).2
              generalize (if vma.file && 0 ≤ vma.fd then fault.file else fun _ => 0) = contents at isMapped
              have kept := tree.take supply contents
              rcases vmmMap_cases kept.tree fault.page phys (demandFlags vma) with
                ⟨-, extend⟩ | ⟨vm₁, pt, -, extend, foundPt, isMap⟩
              · rw [extend.walks, kept.walks, none] at isMapped
                cases isMapped
              · rw [same2, same3, same4] at foundPt
                rw [isMap, same1, walk_setLeaf extend.tree foundPt, leafMapping, if_pos (present_mapEntry ..),
                  extend.above, kept.above, Option.some.injEq] at isMapped
                rw [← isMapped]
                dsimp only
                rw [perms_mapEntry]

/-! ## The entries -/

/-- The permissions of an entry that has the flags of `prot`. -/
def Perms.ofProt (prot : Word) : Perms := ⟨prot.getLsbD 1, true, false⟩

section Entry

variable (prot e : Word)

theorem protEntry_bit {i : Nat} (outside : ptePhysMask.getLsbD i = false) :
    (frame e ||| protBits prot).getLsbD i = (protBits prot).getLsbD i := by
  rw [BitVec.getLsbD_or, frame, BitVec.getLsbD_and, outside, Bool.and_false, Bool.false_or]

theorem present_protEntry : present (frame e ||| protBits prot) = true := by
  rw [present, protEntry_bit prot e (by decide), protBits]
  split
  · decide
  · decide

theorem perms_protEntry : Perms.ofEntry (frame e ||| protBits prot) = .ofProt prot := by
  rw [Perms.ofEntry, writable, user, noExecute, protEntry_bit prot e (by decide), protEntry_bit prot e (by decide),
    protEntry_bit prot e (by decide), Perms.ofProt, protBits]
  cases prot.getLsbD 1 with
  | true => decide
  | false => decide

theorem frame_protEntry : frame (frame e ||| protBits prot) = frame e := by
  have low : frame (protBits prot) = 0 := by
    rw [protBits]
    split
    · decide
    · decide
  have again : frame (frame e) = frame e := by rw [frame, frame, BitVec.and_assoc, BitVec.and_self]
  have both : frame (frame e ||| protBits prot) = frame (frame e) ||| frame (protBits prot) := BitVec.and_or_distrib_right
  rw [both, low, again]
  exact BitVec.or_zero

end Entry

/-- The address has an entry in a table of the last level. -/
def HasEntry (mem : Pages) (cr3 v : Word) : Prop := (tableAt mem cr3 [i2 v, i3 v, i4 v]).isSome = true

instance (mem : Pages) (cr3 v : Word) : Decidable (HasEntry mem cr3 v) := inferInstanceAs (Decidable (_ = true))

/-- A mapping after its entry was given the flags of `prot`. -/
def reprotected (mem : Pages) (cr3 prot v : Word) (m : Mapping) : Mapping :=
  if HasEntry mem cr3 v then ⟨m.frame, (above mem cr3 v).and (.ofProt prot)⟩ else m

theorem reprotected_twice (mem : Pages) (cr3 prot v : Word) (m : Mapping) :
    reprotected mem cr3 prot v (reprotected mem cr3 prot v m) = reprotected mem cr3 prot v m := by
  unfold reprotected
  split
  · rfl
  · rfl

/-- The entries of some addresses were given the flags of `prot`, and nothing else changed. -/
structure Reprotects (cr3 prot : Word) (touched : Word → Prop) (vm vm' : Vm) : Prop where
  tree : Tree vm' cr3
  tables : ∀ place, tableAt vm'.mem cr3 place = tableAt vm.mem cr3 place
  above : ∀ v, above vm'.mem cr3 v = above vm.mem cr3 v
  reached : ∀ v, touched v → walk vm'.mem cr3 v = (walk vm.mem cr3 v).map (reprotected vm.mem cr3 prot v)
  others : ∀ v, ¬touched v → walk vm'.mem cr3 v = walk vm.mem cr3 v

section Loop

variable {cr3 prot : Word} {vm vm' vm'' : Vm} {touched touched' : Word → Prop}

theorem Reprotects.reprotected_eq (first : Reprotects cr3 prot touched vm vm') (v : Word) :
    reprotected vm'.mem cr3 prot v = reprotected vm.mem cr3 prot v := by
  funext m
  have same : HasEntry vm'.mem cr3 v ↔ HasEntry vm.mem cr3 v := by
    unfold HasEntry
    rw [first.tables]
  rw [reprotected, reprotected, first.above]
  exact if_congr same rfl rfl

theorem Reprotects.trans (first : Reprotects cr3 prot touched vm vm') (second : Reprotects cr3 prot touched' vm' vm'') :
    Reprotects cr3 prot (fun v => touched v ∨ touched' v) vm vm'' where
  tree := second.tree
  tables place := (second.tables place).trans (first.tables place)
  above v := (second.above v).trans (first.above v)
  reached v isTouched := by
    by_cases early : touched v
    · by_cases late : touched' v
      · rw [second.reached v late, first.reached v early, first.reprotected_eq, Option.map_map]
        exact congrArg (Option.map · _) (funext fun m => reprotected_twice _ _ _ _ m)
      · rw [second.others v late, first.reached v early]
    · rw [second.reached v (isTouched.resolve_left early), first.others v early, first.reprotected_eq]
  others v untouched := by
    rw [second.others v fun late => untouched (.inr late), first.others v fun early => untouched (.inl early)]

theorem Reprotects.congr (changes : Reprotects cr3 prot touched vm vm') (same : ∀ v, touched v ↔ touched' v) :
    Reprotects cr3 prot touched' vm vm' := by
  obtain rfl : touched = touched' := funext fun v => propext (same v)
  exact changes

theorem Reprotects.none (tree : Tree vm cr3) : Reprotects cr3 prot (fun _ => False) vm vm where
  tree := tree
  tables _ := rfl
  above _ := rfl
  reached _ impossible := impossible.elim
  others _ _ := rfl

/-- Where nothing changes, nothing would have to. -/
theorem Reprotects.same (tree : Tree vm cr3)
    (still : ∀ v, touched v → (walk vm.mem cr3 v).map (reprotected vm.mem cr3 prot v) = walk vm.mem cr3 v) :
    Reprotects cr3 prot touched vm vm where
  tree := tree
  tables _ := rfl
  above _ := rfl
  reached v isTouched := (still v isTouched).symm
  others _ _ := rfl

/-- One page. -/
theorem protectPage_reprotects (tree : Tree vm cr3) (prot va : Word) :
    Reprotects cr3 prot (fun v => path va = path v) vm (protectPage cr3 prot va vm) := by
  have indices : ∀ {v}, path va = path v → i1 va = i1 v ∧ i2 va = i2 v ∧ i3 va = i3 v ∧ i4 va = i4 v := by
    intro v same
    simpa only [path, List.cons.injEq, and_true] using same
  unfold protectPage
  rw [pteGet_look tree]
  cases found : tableAt vm.mem cr3 [i2 va, i3 va, i4 va] with
  | none =>
      refine .same tree fun v same => ?_
      obtain ⟨-, same2, same3, same4⟩ := indices same
      have noEntry : ¬HasEntry vm.mem cr3 v := by
        rw [HasEntry, ← same2, ← same3, ← same4, found]
        exact Bool.false_ne_true
      have id : reprotected vm.mem cr3 prot v = id := funext fun m => if_neg noEntry
      rw [id, Option.map_id, id_eq]
  | some pt =>
      have foundAt : ∀ {v}, path va = path v → tableAt vm.mem cr3 [i2 v, i3 v, i4 v] = some pt := by
        intro v same
        obtain ⟨-, same2, same3, same4⟩ := indices same
        rw [← same2, ← same3, ← same4, found]
      simp only [Option.map_some]
      by_cases isPresent : present (vm.mem pt (i1 va)) = true
      · rw [if_pos isPresent]
        refine ⟨tree.setLeaf found _, table_setLeaf tree found _, above_setLeaf tree found _, fun v same => ?_,
          fun v other => walk_setLeaf_of_ne tree found _ fun same => other same.symm⟩
        have hasEntry : HasEntry vm.mem cr3 v := by rw [HasEntry, foundAt same]; rfl
        rw [(indices same).1] at isPresent ⊢
        rw [walk_setLeaf tree (foundAt same), walk_found (foundAt same), leafMapping, leafMapping, if_pos isPresent,
          if_pos (present_protEntry ..), Option.map_some, reprotected, if_pos hasEntry, frame_protEntry, perms_protEntry]
      · rw [if_neg isPresent]
        refine .same tree fun v same => ?_
        rw [(indices same).1] at isPresent
        rw [walk_found (foundAt same), leafMapping, if_neg isPresent]
        rfl

/-- The pages of a loop. -/
theorem protectUp_reprotects (tree : Tree vm cr3) (left : Nat) (va : Word) :
    Reprotects cr3 prot (fun v => ∃ k < left, path (va + BitVec.ofNat 64 (k * 4096)) = path v) vm
      (protectUp cr3 prot left va vm) := by
  induction left generalizing va vm with
  | zero => exact (Reprotects.none tree).congr fun v => ⟨False.elim, fun ⟨k, few, _⟩ => absurd few (Nat.not_lt_zero k)⟩
  | succ left ih =>
      have first := protectPage_reprotects tree prot va
      have shift : ∀ k, va + BitVec.ofNat 64 ((k + 1) * 4096) = va + 0x1000 + BitVec.ofNat 64 (k * 4096) := by
        intro k
        have size : (0x1000 : Word).toNat = 4096 := rfl
        apply BitVec.eq_of_toNat_eq
        simp only [BitVec.toNat_add, BitVec.toNat_ofNat, size]
        omega
      rw [protectUp]
      refine (first.trans (ih first.tree (va + 0x1000))).congr fun v => ?_
      constructor
      · rintro (here | ⟨k, few, later⟩)
        · exact ⟨0, Nat.succ_pos _, by simpa using here⟩
        · exact ⟨k + 1, Nat.succ_lt_succ few, by rw [shift, later]⟩
      · rintro ⟨k, few, same⟩
        cases k with
        | zero => exact .inl (by simpa using same)
        | succ k => exact .inr ⟨k, Nat.lt_of_succ_lt_succ few, by rw [← shift, same]⟩

end Loop

/-! ## The VMA table -/

section Table

variable {prot : Word} {flags : BitVec 32}

theorem getLsbD_protFlags (prot : Word) (flags : BitVec 32) (i : Nat) :
    (protFlags prot flags).getLsbD i = if i < 3 then prot.getLsbD i else flags.getLsbD i := by
  have mask : ∀ j < 32, (~~~(vmaRead ||| vmaWrite ||| vmaExec)).getLsbD j = decide (3 ≤ j) := by decide
  have bits : ∀ j < 32, 3 ≤ j → vmaRead.getLsbD j = false ∧ vmaWrite.getLsbD j = false ∧ vmaExec.getLsbD j = false := by
    decide
  have chosen : ∀ (b : Bool) {c : BitVec 32}, c.getLsbD i = false → (if b then c else 0).getLsbD i = false := by
    intro b c unset
    cases b with
    | true => exact unset
    | false => exact BitVec.getLsbD_zero
  rw [protFlags, BitVec.getLsbD_or, BitVec.getLsbD_or, BitVec.getLsbD_or, BitVec.getLsbD_and]
  by_cases low : i < 3
  · rw [if_pos low, mask i (by omega)]
    obtain rfl | rfl | rfl : i = 0 ∨ i = 1 ∨ i = 2 := by omega
    all_goals
      cases prot.getLsbD 0 <;> cases prot.getLsbD 1 <;> cases prot.getLsbD 2 <;> simp [vmaRead, vmaWrite, vmaExec]
  · rw [if_neg low]
    by_cases inside : i < 32
    · obtain ⟨read, write, exec⟩ := bits i inside (Nat.not_lt.mp low)
      rw [chosen _ read, chosen _ write, chosen _ exec, mask i inside, decide_eq_true (Nat.not_lt.mp low)]
      simp only [Bool.and_true, Bool.or_false]
    · simp only [BitVec.getLsbD_of_ge _ i (Nat.not_lt.mp inside), Bool.false_and, Bool.or_false]

theorem protFlags_eq_iff : protFlags prot flags = flags ↔ Access.ofFlags flags = .ofProt prot := by
  constructor
  · intro same
    rw [← same, Access.ofFlags, getLsbD_protFlags, getLsbD_protFlags, getLsbD_protFlags]
    rfl
  · intro same
    obtain ⟨read, write, exec⟩ := Access.mk.inj same
    refine BitVec.eq_of_getLsbD_eq fun i _ => ?_
    rw [getLsbD_protFlags]
    by_cases low : i < 3
    · rw [if_pos low]
      obtain rfl | rfl | rfl : i = 0 ∨ i = 1 ∨ i = 2 := by omega
      · exact read.symm
      · exact write.symm
      · exact exec.symm
    · rw [if_neg low]

/-- A VMA after the call. -/
def Vma.withProt (vma : Vma) (addr stop prot : Word) : Vma :=
  if vma.overlaps addr stop then { vma with flags := protFlags prot vma.flags } else vma

theorem vmmFindVma_withProt (vmas : List Vma) (addr stop prot v : Word) :
    vmmFindVma (vmas.map fun vma => vma.withProt addr stop prot) v =
      (vmmFindVma vmas v).map fun vma => vma.withProt addr stop prot := by
  have same : (fun vma : Vma => vma.start < vma.stop && vma.start ≤ v && v < vma.stop) ∘
      (fun vma => vma.withProt addr stop prot) = fun vma : Vma => vma.start < vma.stop && vma.start ≤ v && v < vma.stop := by
    funext vma
    simp only [Function.comp, Vma.withProt]
    split
    · rfl
    · rfl
  rw [vmmFindVma, List.find?_map, same]
  rfl

theorem table_protectVmas (p : UserProcess) (addr stop prot : Word) (vm : Vm) :
    UserProcess.table { p with vmas := p.vmas.map fun table => protectVmas table addr stop prot, vm := vm } =
      p.table.map fun vma => vma.withProt addr stop prot := by
  unfold UserProcess.table
  cases p.vmas with
  | none => rfl
  | some table =>
      simp only [Option.map_some, Option.getD_some, protectVmas, List.map_map]
      refine List.map_congr_left fun vma _ => ?_
      simp only [Function.comp, Vma.withProt]
      split
      · rfl
      · rfl

theorem perms_demandFlags_withProt {vma : Vma} {addr stop : Word} (overlaps : vma.overlaps addr stop = true) :
    Perms.ofEntry (demandFlags (vma.withProt addr stop prot)) = .ofProt prot := by
  have write : (vma.withProt addr stop prot).write = prot.getLsbD 1 := by
    rw [Vma.withProt, if_pos overlaps, Vma.write, getLsbD_protFlags]
    rfl
  rw [demandFlags, write, Perms.ofProt]
  cases prot.getLsbD 1 with
  | true => decide
  | false => decide

end Table

/-! ## When the call does what was asked for -/

/-- The call gives the pages of the range the access that is asked for, and no others: the tables above every mapped
page have to leave just this access to an entry for ring 3 that may be executed, every VMA that is not within the range
has to have it before, and the addresses have to be translated apart. -/
structure ProtectFits (p : UserProcess) (addr len prot : Word) : Prop where
  resident : ∀ v m, Canonical v → InRange addr len.toNat v → walk p.vm.mem p.cr3 v = some m →
    if v < addr + len ∧ HasEntry p.vm.mem p.cr3 v then
      ((above p.vm.mem p.cr3 v).and (.ofProt prot)).access = .ofProt prot
    else m.perms.access = .ofProt prot
  covered : ∀ v vma, Canonical v → InRange addr len.toNat v → vmmFindVma p.table v = some vma →
    if vma.overlaps addr (addr + len) then ((above p.vm.mem p.cr3 v).and (.ofProt prot)).access = .ofProt prot
    else ((above p.vm.mem p.cr3 v).and (.ofEntry (demandFlags vma))).access = .ofProt prot
  flags : len ≠ 0 → ∀ v vma, ¬InRange addr len.toNat v → vmmFindVma p.table v = some vma →
    vma.overlaps addr (addr + len) = true → Access.ofFlags vma.flags = .ofProt prot
  entries : ∀ v m va, Canonical v → ¬InRange addr len.toNat v → addr ≤ va → va < addr + len → path va = path v →
    HasEntry p.vm.mem p.cr3 v → walk p.vm.mem p.cr3 v = some m → m.perms = (above p.vm.mem p.cr3 v).and (.ofProt prot)

section Call

variable {p : UserProcess} {addr len prot : Word}

theorem toNat_mod_page (page : addr &&& 0xfff = 0) : addr.toNat % 4096 = 0 := by
  have low : (addr &&& 0xfff).toNat = addr.toNat % 2 ^ 12 := by
    have mask : (0xfff : Word).toNat = 2 ^ 12 - 1 := rfl
    rw [BitVec.toNat_and, mask, Nat.and_two_pow_sub_one_eq_mod]
  rw [page] at low
  exact low.symm

/-- The pages the loop reaches are those of the addresses from `addr` up to `addr + len` as it is computed. -/
theorem reached_iff {stop v : Word} (page : addr.toNat % 4096 = 0) (pages : stop.toNat % 4096 = 0) :
    (∃ k < (stop.toNat - addr.toNat) / 4096, path (addr + BitVec.ofNat 64 (k * 4096)) = path v) ↔
      ∃ va, addr ≤ va ∧ va < stop ∧ path va = path v := by
  have value : ∀ k < (stop.toNat - addr.toNat) / 4096, (addr + BitVec.ofNat 64 (k * 4096)).toNat = addr.toNat + k * 4096 := by
    intro k few
    have below := stop.isLt
    rw [BitVec.toNat_add, BitVec.toNat_ofNat]
    omega
  simp only [BitVec.le_def, BitVec.lt_def]
  constructor
  · rintro ⟨k, few, same⟩
    refine ⟨_, ?_, ?_, same⟩
    · rw [value k few]
      omega
    · rw [value k few]
      omega
  · rintro ⟨va, low, high, same⟩
    have few : (va.toNat - addr.toNat) / 4096 < (stop.toNat - addr.toNat) / 4096 := by omega
    refine ⟨_, few, ?_⟩
    have down : addr + BitVec.ofNat 64 ((va.toNat - addr.toNat) / 4096 * 4096) = pageDown va := by
      apply BitVec.eq_of_toNat_eq
      rw [value _ few, toNat_pageDown]
      omega
    rw [down, ← same]
    exact path_page va

theorem reached_inRange {v : Word} (inside : InRange addr len.toNat v) :
    (∃ va, addr ≤ va ∧ va < addr + len ∧ path va = path v) ↔ v < addr + len := by
  obtain ⟨low, high⟩ := inside
  constructor
  · rintro ⟨va, from_, below, -⟩
    rw [BitVec.le_def] at from_
    rw [BitVec.lt_def, BitVec.toNat_add] at below ⊢
    have word := len.isLt
    have word' := addr.isLt
    omega
  · intro below
    exact ⟨v, low, below, rfl⟩

/-- What the call makes of the process. -/
theorem sysMprotect_spec (tree : Tree p.vm p.cr3) (prot : Word) (page : addr &&& 0xfff = 0) (pages : len &&& 0xfff = 0)
    (some : len ≠ 0) :
    ∃ vm, Reprotects p.cr3 prot (fun v => ∃ va, addr ≤ va ∧ va < addr + len ∧ path va = path v) p.vm vm ∧
      (sysMprotect p addr len prot).2 = { p with
        vmas := p.vmas.map fun table => protectVmas table addr (addr + len) prot
        vm := vm } := by
  have start := toNat_mod_page page
  have length := toNat_mod_page pages
  have up : pageUp len = len := by
    apply BitVec.eq_of_toNat_eq
    have word := len.isLt
    rw [toNat_pageUp]
    omega
  have stop : (addr + len).toNat % 4096 = 0 := by
    rw [BitVec.toNat_add]
    omega
  refine ⟨_, (protectUp_reprotects tree (((addr + len).toNat - addr.toNat) / 4096) addr).congr fun v =>
    reached_iff start stop, ?_⟩
  rw [sysMprotect, if_neg (not_not_intro page), up, if_neg some]

/-- A call of `sys_mprotect` does what was asked for exactly under these conditions. -/
theorem sysMprotect_protects_iff (tree : Tree p.vm p.cr3) (page : addr &&& 0xfff = 0) (pages : len &&& 0xfff = 0) :
    Protects p (sysMprotect p addr len prot).2 addr len prot ↔ ProtectFits p addr len prot := by
  by_cases isZero : len = 0
  · have none : ∀ v, ¬InRange addr len.toNat v := by
      rintro v ⟨low, high⟩
      rw [isZero] at high
      exact absurd high (Nat.not_lt.mpr low)
    have nothing : (sysMprotect p addr len prot).2 = p := by
      rw [sysMprotect, if_neg (not_not_intro page), isZero]
      rfl
    rw [nothing]
    refine iff_of_true ⟨?_, ?_, fun _ _ => rfl, fun _ _ _ => rfl⟩ ⟨?_, ?_, fun some => absurd isZero some, ?_⟩
    · exact fun v _ _ inside => absurd inside (none v)
    · exact fun v _ _ inside => absurd inside (none v)
    · exact fun v _ _ inside => absurd inside (none v)
    · exact fun v _ _ inside => absurd inside (none v)
    · intro v m va _ _ low high
      have same : addr + 0 = addr := BitVec.add_zero addr
      rw [isZero, same] at high
      exact absurd high (BitVec.not_lt.mpr low)
  · obtain ⟨vm, changes, result⟩ := sysMprotect_spec tree prot page pages isZero
    rw [result]
    have find : ∀ v, vmmFindVma (UserProcess.table { p with
        vmas := p.vmas.map fun table => protectVmas table addr (addr + len) prot, vm := vm }) v =
        (vmmFindVma p.table v).map fun vma => vma.withProt addr (addr + len) prot := by
      intro v
      rw [table_protectVmas, vmmFindVma_withProt]
    constructor
    · intro done
      refine ⟨fun v m canonical inside mapped => ?_, fun v vma canonical inside found => ?_,
        fun _ v vma outside found overlaps => ?_, fun v m va canonical outside low high same hasEntry mapped => ?_⟩
      · obtain ⟨m', mapped', -, access⟩ := done.resident v m canonical inside mapped
        dsimp only at mapped'
        by_cases below : v < addr + len
        · rw [changes.reached v ((reached_inRange inside).mpr below), mapped, Option.map_some, Option.some.injEq,
            reprotected] at mapped'
          by_cases hasEntry : HasEntry p.vm.mem p.cr3 v
          · rw [if_pos hasEntry] at mapped'
            rw [if_pos ⟨below, hasEntry⟩, ← access, ← mapped']
          · rw [if_neg hasEntry] at mapped'
            rw [if_neg fun both => hasEntry both.2, ← access, ← mapped']
        · rw [changes.others v fun reached => below ((reached_inRange inside).mp reached), mapped,
            Option.some.injEq] at mapped'
          rw [if_neg fun both => below both.1, ← access, ← mapped']
      · have access := done.demand v _ canonical inside (by rw [demandAccess, find, found]; rfl)
        dsimp only at access
        rw [changes.above] at access
        by_cases overlaps : vma.overlaps addr (addr + len) = true
        · rw [perms_demandFlags_withProt overlaps] at access
          rwa [if_pos overlaps]
        · rw [Vma.withProt, if_neg overlaps] at access
          rwa [if_neg overlaps]
      · have same := done.flags v outside
        rw [find, found, Option.map_some, Option.map_some, Option.map_some, Option.some.injEq, Vma.withProt,
          if_pos overlaps] at same
        exact protFlags_eq_iff.mp same
      · have same' := done.entries v canonical outside
        dsimp only at same'
        rw [changes.reached v ⟨va, low, high, same⟩, mapped, Option.map_some, Option.some.injEq, reprotected,
          if_pos hasEntry] at same'
        exact (congrArg Mapping.perms same').symm
    · intro fits
      refine ⟨fun v m canonical inside mapped => ?_, fun v access canonical inside found => ?_,
        fun v outside => ?_, fun v canonical outside => ?_⟩
      · have access := fits.resident v m canonical inside mapped
        dsimp only
        by_cases below : v < addr + len
        · rw [changes.reached v ((reached_inRange inside).mpr below), mapped]
          refine ⟨_, rfl, ?_, ?_⟩
          · rw [reprotected]
            split
            · rfl
            · rfl
          · rw [reprotected]
            by_cases hasEntry : HasEntry p.vm.mem p.cr3 v
            · rw [if_pos ⟨below, hasEntry⟩] at access
              rw [if_pos hasEntry]
              exact access
            · rw [if_neg fun both => hasEntry both.2] at access
              rw [if_neg hasEntry]
              exact access
        · rw [if_neg fun both => below both.1] at access
          rw [changes.others v fun reached => below ((reached_inRange inside).mp reached)]
          exact ⟨m, mapped, rfl, access⟩
      · rw [demandAccess, find] at found
        cases isVma : vmmFindVma p.table v with
        | none =>
            rw [isVma] at found
            cases found
        | some vma =>
            rw [isVma, Option.map_some, Option.map_some, Option.some.injEq] at found
            dsimp only at found
            rw [changes.above] at found
            have asked := fits.covered v vma canonical inside isVma
            by_cases overlaps : vma.overlaps addr (addr + len) = true
            · rw [if_pos overlaps] at asked
              rw [← found, perms_demandFlags_withProt overlaps, asked]
            · rw [if_neg overlaps] at asked
              rw [← found, Vma.withProt, if_neg overlaps, asked]
      · rw [find]
        cases isVma : vmmFindVma p.table v with
        | none => rfl
        | some vma =>
            rw [Option.map_some, Option.map_some, Option.map_some, Vma.withProt]
            by_cases overlaps : vma.overlaps addr (addr + len) = true
            · rw [if_pos overlaps]
              exact congrArg _ (protFlags_eq_iff.mpr (fits.flags isZero v vma outside isVma overlaps))
            · rw [if_neg overlaps]
      · dsimp only
        by_cases reached : ∃ va, addr ≤ va ∧ va < addr + len ∧ path va = path v
        · obtain ⟨va, low, high, same⟩ := reached
          rw [changes.reached v ⟨va, low, high, same⟩]
          cases mapped : walk p.vm.mem p.cr3 v with
          | none => rfl
          | some m =>
              rw [Option.map_some, reprotected]
              by_cases hasEntry : HasEntry p.vm.mem p.cr3 v
              · rw [if_pos hasEntry, ← fits.entries v m va canonical outside low high same hasEntry mapped]
              · rw [if_neg hasEntry]
        · rw [changes.others v reached]

end Call

/-! ## A VMA of two pages -/

/-- A process with a VMA of two pages that may be read and written; none of them is resident. -/
def twoPages : UserProcess :=
  ⟨clearVm, 0x403000, brkBase, some [⟨⟨0x1000000, 0x1002000, vmaRead ||| vmaWrite, -1⟩, 0⟩], mmapBase⟩

theorem sysMprotect_protects_iff_twoPages :
    Protects twoPages (sysMprotect twoPages 0x1000000 0x2000 7).2 0x1000000 0x2000 7 ↔
      ProtectFits twoPages 0x1000000 0x2000 7 :=
  sysMprotect_protects_iff tree_clearVm (by decide) (by decide)

/-- A change of the first page alone to `PROT_READ` takes the right to write from the second one, and leaves the first
one executable. -/
theorem sysMprotect_whole_vma :
    ¬Protects twoPages (sysMprotect twoPages 0x1000000 0x1000 1).2 0x1000000 0x1000 1 ∧
      (vmmFindVma (sysMprotect twoPages 0x1000000 0x1000 1).2.table 0x1001000).map Vma.flags = some vmaRead ∧
      demandAccess (sysMprotect twoPages 0x1000000 0x1000 1).2 0x1000000 = some ⟨true, false, true⟩ := by
  have second : (vmmFindVma (sysMprotect twoPages 0x1000000 0x1000 1).2.table 0x1001000).map Vma.flags = some vmaRead := by
    decide +kernel
  refine ⟨fun done => ?_, second, by decide +kernel⟩
  have same := done.flags 0x1001000 (by unfold InRange; decide)
  rw [second] at same
  exact absurd same (by decide)

end Systrix.Vmm
