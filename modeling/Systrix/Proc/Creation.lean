import Systrix.Proc.StateLaws

/-!
# Slots and identifiers of created processes

A process that was created stays in the state `EMPTY` until it is run, so `process_create` may take
its slot again; `sys_fork` writes into the slot behind that of its child.  The processes that were
created and not yet destroyed are followed over runs beside the kernel.
-/

namespace Systrix.Proc

open Run

/-- A process that was created and not yet destroyed: its slot and what `process_create` returned. -/
structure Created where
  slot : Nat
  pid : Nat
  deriving DecidableEq, Repr

/-- The kernel with the processes that were created and not yet destroyed. -/
structure Roster where
  kernel : Kernel
  created : List Created

/-- After boot. -/
def Roster.start : Roster := ⟨Kernel.start, []⟩

/-- The calls that create, start and end processes. -/
inductive ProcCall where
  | create (r : Resources) (entry : Nat) (name : List UInt8)
  | run (pid : Nat)
  | fork (r : Resources)
  | exit
  | exitGroup
  | destroy (i : Nat)

/-- `process_destroy` of a slot. -/
def Roster.destroy (s : Roster) (i : Nat) : Roster :=
  ⟨processDestroy s.kernel i, s.created.filter (·.slot ≠ i)⟩

/-- One call. -/
def Roster.step (s : Roster) : ProcCall → Roster
  | .create r entry name =>
      match createIn s.kernel r entry name with
      | none => s
      | some (i, k) => ⟨k, ⟨i, i + 1⟩ :: s.created⟩
  | .run pid => { s with kernel := processRun s.kernel pid }
  | .fork r =>
      match sysFork s.kernel r with
      | none => s
      | some out => ⟨out.kernel, ⟨out.child_pid - 1, out.child_pid⟩ :: s.created⟩
  | .exit => { s with kernel := schedulerExit s.kernel }
  | .exitGroup =>
      match processCurrentPcb s.kernel with
      | none => s
      | some i => s.destroy i
  | .destroy i => s.destroy i

/-- Creating a process in a slot, which led to a kernel, gave it a slot and an identifier of its own
and left the processes there were alone. -/
def Roster.Own (s : Roster) (slot pid : Nat) (k : Kernel) : Prop :=
  ∀ p ∈ s.created, p.slot ≠ slot ∧ p.pid ≠ pid ∧ k.table p.slot = s.kernel.table p.slot

/-- A call that creates a process creates one of its own. -/
def CreatesOwn (s : Roster) : ProcCall → Prop
  | .create r entry name => ∀ i k, createIn s.kernel r entry name = some (i, k) → s.Own i (i + 1) k
  | .fork r => ∀ out, sysFork s.kernel r = some out →
      s.Own (out.child_pid - 1) out.child_pid out.kernel
  | _ => True

/-- Before every process that was created and never run lies an empty slot that holds none. -/
def Roster.Shielded (s : Roster) : Prop :=
  ∀ p ∈ s.created, (s.kernel.table p.slot).state = .empty →
    ∃ j < p.slot, (s.kernel.table j).state = .empty ∧ ∀ q ∈ s.created, q.slot ≠ j

/-- A process in the slot behind the first empty one has the stack pointer, the entry and the break
of the process that forks. -/
def Roster.BehindAlike (s : Roster) : Prop :=
  ∀ parent i, processCurrentPcb s.kernel = some parent →
    (findPcb s.kernel.table fun t => t.state = .empty) = some i →
    ∀ p ∈ s.created, p.slot = i + 1 →
      (s.kernel.table (i + 1)).ursp = (s.kernel.table parent).ursp ∧
      (s.kernel.table (i + 1)).entry = (s.kernel.table parent).entry ∧
      (s.kernel.table (i + 1)).brk = (s.kernel.table parent).brk

/-- The state in which a call creates a process of its own, if it creates one. -/
def FindsRoom (s : Roster) : ProcCall → Prop
  | .create r _ _ => CreateFails s.kernel r ∨ s.Shielded
  | .fork r => processCurrentPcb s.kernel = none ∨ CreateFails s.kernel r ∨ s.Shielded ∧ s.BehindAlike
  | _ => True

/-! ## Identifiers name slots -/

/-- A slot of the table has no identifier yet, or its own. -/
def PidsBySlot (k : Kernel) : Prop := ∀ i < procMax, (k.table i).pid = 0 ∨ (k.table i).pid = i + 1

theorem PidsBySlot.setPcb {k : Kernel} (bySlot : PidsBySlot k) {i : Nat} {pcb : Pcb}
    (pid : pcb.pid = (k.table i).pid ∨ pcb.pid = i + 1) : PidsBySlot (k.setPcb i pcb) := by
  intro j inside
  by_cases same : j = i
  · subst same
    rw [setPcb_table_self]
    rcases pid with kept | own
    · rw [kept]
      exact bySlot j inside
    · exact .inr own
  · rw [setPcb_table_of_ne k i pcb same]
    exact bySlot j inside

theorem PidsBySlot.setState {k : Kernel} (bySlot : PidsBySlot k) (i : Nat) (state : PState) :
    PidsBySlot (k.setState i state) := bySlot.setPcb (.inl rfl)

theorem PidsBySlot.processRun {k : Kernel} (bySlot : PidsBySlot k) (pid : Nat) :
    PidsBySlot (processRun k pid) := by
  rcases processRun_eq k pid with same | ⟨i, -, started⟩
  · rwa [same]
  · rw [started]
    exact bySlot.setState i .running

/-- The identifier of a slot leads back to it. -/
theorem PidsBySlot.pcbOfPid {k : Kernel} (bySlot : PidsBySlot k) {i : Nat} (inside : i < procMax)
    (pid : (k.table i).pid = i + 1) : pcbOfPid k (i + 1) = some i := by
  unfold Proc.pcbOfPid findPcb
  refine List.find?_range_eq_some.mpr ⟨decide_eq_true pid, List.mem_range.mpr inside, fun j before => ?_⟩
  have other : (k.table j).pid ≠ i + 1 := by
    rcases bySlot j (Nat.lt_trans before inside) with unused | own
    · rw [unused]
      exact (Nat.succ_ne_zero i).symm
    · rw [own]
      exact fun equal => absurd (Nat.succ.inj equal) (Nat.ne_of_lt before)
  simpa using other

/-! ## What a creating call does -/

theorem createIn_isSome {k : Kernel} {r : Resources} (works : ¬CreateFails k r) (entry : Nat)
    (name : List UInt8) : ∃ i k', createIn k r entry name = some (i, k') := by
  unfold CreateFails at works
  rw [not_or, not_or] at works
  obtain ⟨slot, space, stack⟩ := works
  obtain ⟨i, found⟩ := Option.ne_none_iff_exists'.mp slot
  obtain ⟨cr3, hasSpace⟩ := Option.ne_none_iff_exists'.mp space
  obtain ⟨kstack_base, hasStack⟩ := Option.ne_none_iff_exists'.mp stack
  refine ⟨i, k.setPcb i (newPcb i entry name cr3 kstack_base r.vmas), ?_⟩
  unfold createIn
  rw [found, hasSpace, hasStack]

theorem not_createFails {k k' : Kernel} {r : Resources} {entry i : Nat} {name : List UInt8}
    (created : createIn k r entry name = some (i, k')) : ¬CreateFails k r := by
  intro fails
  rw [createIn_of_fails fails] at created
  cases created

/-- `sys_fork` fills in the first empty slot and starts it, and writes the stack pointer, the entry
and the break of the parent into the slot behind. -/
theorem sysFork_spec {k : Kernel} {r : Resources} {out : Fork} (bySlot : PidsBySlot k)
    (forks : sysFork k r = some out) : ∃ parent i, processCurrentPcb k = some parent ∧
      (findPcb k.table fun t => t.state = .empty) = some i ∧ ¬CreateFails k r ∧
      out.child_pid = i + 1 ∧ PidsBySlot out.kernel ∧
      out.kernel.table (i + 1) = { k.table (i + 1) with
        ursp := (k.table parent).ursp, entry := (k.table parent).entry, brk := (k.table parent).brk } ∧
      ∀ j, j ≠ i → j ≠ i + 1 → out.kernel.table j = k.table j := by
  unfold sysFork at forks
  split at forks
  · cases forks
  rename_i parent isCurrent
  dsimp only at forks
  split at forks
  · cases forks
  rename_i i k₁ created
  obtain ⟨found, cr3, kstack_base, rfl⟩ := createIn_spec created
  have running : (k.table parent).state = .running := of_decide_eq_true (findPcb_test isCurrent)
  have isEmpty : (k.table i).state = .empty := of_decide_eq_true (findPcb_test found)
  have apart : parent ≠ i := by
    rintro rfl
    rw [running] at isEmpty
    cases isEmpty
  have inside := findPcb_lt found
  have ahead : i ≠ getPcb (i + 1) := Nat.ne_of_lt (Nat.lt_succ_self i)
  have bySlot₁ : PidsBySlot (k.setPcb i
      (newPcb i (k.table parent).entry (k.table parent).name cr3 kstack_base r.vmas)) :=
    bySlot.setPcb (.inr rfl)
  cases forks
  refine ⟨parent, i, isCurrent, found, not_createFails created, rfl, ?_⟩
  dsimp only
  rw [setPcb_table_of_ne _ i _ ahead.symm, setPcb_table_of_ne _ i _ apart]
  generalize filled : Kernel.setPcb (k.setPcb i _) (getPcb (i + 1)) _ = k₂
  have slotPid : (k₂.table i).pid = i + 1 := by
    rw [← filled, setPcb_table_of_ne _ _ _ ahead, setPcb_table_self]
    rfl
  have bySlot₂ : PidsBySlot k₂ := by
    rw [← filled]
    exact bySlot₁.setPcb (.inl (by rw [setPcb_table_of_ne _ i _ ahead.symm]))
  have started : processRun k₂ (i + 1) = k₂.setState i .running := by
    unfold processRun
    rw [bySlot₂.pcbOfPid (findPcb_lt found) slotPid]
  rw [started]
  refine ⟨bySlot₂.setState i .running, ?_, ?_⟩
  · rw [setState_table_of_ne k₂ i .running (Nat.succ_ne_self i), ← filled]
    exact setPcb_table_self _ _ _
  · intro j notSlot notBehind
    rw [setState_table_of_ne _ _ _ notSlot, ← filled, setPcb_table_of_ne _ (getPcb (i + 1)) _ notBehind,
      setPcb_table_of_ne _ _ _ notSlot]

/-! ## One step -/

/-- What every run keeps: identifiers name slots, in the table and of the processes created. -/
structure Roster.Inv (s : Roster) : Prop where
  bySlot : PidsBySlot s.kernel
  named : ∀ p ∈ s.created, p.slot < procMax ∧ p.pid = p.slot + 1

theorem Roster.Inv.add {s : Roster} (inv : s.Inv) {k : Kernel} {i : Nat} (bySlot : PidsBySlot k)
    (inside : i < procMax) : Roster.Inv ⟨k, ⟨i, i + 1⟩ :: s.created⟩ where
  bySlot := bySlot
  named p member := by
    rcases List.mem_cons.mp member with rfl | old
    · exact ⟨inside, rfl⟩
    · exact inv.named p old

theorem Roster.Inv.destroy {s : Roster} (inv : s.Inv) (i : Nat) : (s.destroy i).Inv where
  bySlot := inv.bySlot.setPcb (.inl rfl)
  named p member := inv.named p (List.mem_filter.mp member).1

theorem Roster.Inv.step {s : Roster} (inv : s.Inv) (call : ProcCall) : (s.step call).Inv := by
  cases call with
  | create r entry name =>
      simp only [Roster.step]
      split
      · exact inv
      · rename_i i k created
        obtain ⟨found, cr3, kstack_base, rfl⟩ := createIn_spec created
        exact inv.add (inv.bySlot.setPcb (.inr rfl)) (findPcb_lt found)
  | run pid => exact ⟨inv.bySlot.processRun pid, inv.named⟩
  | fork r =>
      simp only [Roster.step]
      split
      · exact inv
      · rename_i out forks
        obtain ⟨-, i, -, found, -, pid, bySlot, -⟩ := sysFork_spec inv.bySlot forks
        rw [pid]
        exact inv.add bySlot (findPcb_lt found)
  | exit =>
      refine ⟨?_, inv.named⟩
      simp only [Roster.step]
      unfold schedulerExit
      split
      · exact inv.bySlot
      · exact inv.bySlot.setState _ _
  | exitGroup =>
      simp only [Roster.step]
      split
      · exact inv
      · exact inv.destroy _
  | destroy i => exact inv.destroy i

theorem Roster.inv_start : Roster.start.Inv where
  bySlot _ _ := .inl rfl
  named _ member := absurd member List.not_mem_nil

/-- The first empty slot holds no created process exactly when all of these are shielded. -/
theorem Roster.shielded_iff {s : Roster} {i : Nat}
    (found : (findPcb s.kernel.table fun t => t.state = .empty) = some i) :
    s.Shielded ↔ ∀ p ∈ s.created, p.slot ≠ i := by
  have isEmpty : (s.kernel.table i).state = .empty := of_decide_eq_true (findPcb_test found)
  constructor
  · rintro shielded p member rfl
    obtain ⟨j, before, empty, -⟩ := shielded p member isEmpty
    exact absurd (findPcb_le found (decide_eq_true empty)) (Nat.not_le.mpr before)
  · intro apart p member empty
    have least := findPcb_le found (decide_eq_true empty)
    exact ⟨i, Nat.lt_of_le_of_ne least (apart p member).symm, isEmpty, apart⟩

theorem Roster.Inv.own_iff {s : Roster} (inv : s.Inv) (i : Nat) (k : Kernel) : s.Own i (i + 1) k ↔
    (∀ p ∈ s.created, p.slot ≠ i) ∧ ∀ p ∈ s.created, k.table p.slot = s.kernel.table p.slot := by
  constructor
  · exact fun own => ⟨fun p member => (own p member).1, fun p member => (own p member).2.2⟩
  · rintro ⟨apart, same⟩ p member
    refine ⟨apart p member, ?_, same p member⟩
    rw [(inv.named p member).2]
    exact fun equal => apart p member (Nat.succ.inj equal)

theorem Roster.Inv.create_iff {s : Roster} (inv : s.Inv) (r : Resources) (entry : Nat) (name : List UInt8) :
    CreatesOwn s (.create r entry name) ↔ FindsRoom s (.create r entry name) := by
  simp only [CreatesOwn, FindsRoom]
  by_cases fails : CreateFails s.kernel r
  · simp [createIn_of_fails fails, fails]
  obtain ⟨i, k, created⟩ := createIn_isSome fails entry name
  obtain ⟨found, cr3, kstack_base, rfl⟩ := createIn_spec created
  have others : (∀ p ∈ s.created, p.slot ≠ i) → ∀ p ∈ s.created,
      (s.kernel.setPcb i (newPcb i entry name cr3 kstack_base r.vmas)).table p.slot =
        s.kernel.table p.slot :=
    fun apart p member => setPcb_table_of_ne _ _ _ (apart p member)
  constructor
  · intro own
    exact .inr ((Roster.shielded_iff found).mpr ((inv.own_iff _ _).mp (own i _ created)).1)
  · rintro (failed | shielded) i' k' created'
    · exact absurd failed fails
    · rw [created] at created'
      cases created'
      have apart := (Roster.shielded_iff found).mp shielded
      exact (inv.own_iff _ _).mpr ⟨apart, others apart⟩

theorem Roster.Inv.fork_iff {s : Roster} (inv : s.Inv) (r : Resources) :
    CreatesOwn s (.fork r) ↔ FindsRoom s (.fork r) := by
  simp only [CreatesOwn, FindsRoom]
  cases forks : sysFork s.kernel r with
  | none =>
      refine ⟨fun _ => ?_, fun _ out some => by cases some⟩
      unfold sysFork at forks
      split at forks
      · rename_i noCurrent
        exact .inl noCurrent
      · refine .inr (.inl ?_)
        by_contra works
        rename_i parent _
        obtain ⟨i, k, created⟩ :=
          createIn_isSome works (s.kernel.table parent).entry (s.kernel.table parent).name
        simp only [created] at forks
        cases forks
  | some out =>
      obtain ⟨parent, i, isCurrent, found, works, pid, -, behind, others⟩ := sysFork_spec inv.bySlot forks
      have slot : out.child_pid - 1 = i := by rw [pid, Nat.add_sub_cancel]
      constructor
      · intro own
        have own' := own out rfl
        rw [slot, pid, inv.own_iff] at own'
        refine .inr (.inr ⟨(Roster.shielded_iff found).mpr own'.1, ?_⟩)
        intro parent' i' isCurrent' found' p member isBehind
        rw [isCurrent] at isCurrent'
        rw [found] at found'
        cases isCurrent'
        cases found'
        have same := own'.2 p member
        rw [isBehind, behind] at same
        rw [← same]
        exact ⟨rfl, rfl, rfl⟩
      · rintro (noCurrent | fails | ⟨shielded, alike⟩) out' forks'
        · rw [isCurrent] at noCurrent
          cases noCurrent
        · exact absurd fails works
        · cases forks'
          have apart := (Roster.shielded_iff found).mp shielded
          rw [slot, pid, inv.own_iff]
          refine ⟨apart, fun p member => ?_⟩
          by_cases isBehind : p.slot = i + 1
          · obtain ⟨ursp, entry, brk⟩ := alike parent i isCurrent found p member isBehind
            rw [isBehind, behind, ← ursp, ← entry, ← brk]
          · exact others p.slot (apart p member) isBehind

theorem Roster.Inv.createsOwn_iff {s : Roster} (inv : s.Inv) (call : ProcCall) :
    CreatesOwn s call ↔ FindsRoom s call := by
  cases call with
  | create r entry name => exact inv.create_iff r entry name
  | fork r => exact inv.fork_iff r
  | _ => exact Iff.rfl

/-! ## Runs -/

/-- In a run from boot every process gets a slot and an identifier that no process has which was
created and not yet destroyed, and overwrites none of these, exactly if every creating call finds
room. -/
theorem createsOwn_run_iff (calls : List ProcCall) :
    Meets Roster.step CreatesOwn .start calls ↔ Meets Roster.step FindsRoom .start calls :=
  meets_congr (I := Roster.Inv) (fun _ call inv => Roster.Inv.step inv call) (fun _ call inv => inv.createsOwn_iff call)
    Roster.inv_start calls

/-- Two processes are created before the first of them is run: both get slot 0 and identifier 1. -/
theorem create_create_same_slot :
    ¬∀ calls, Meets Roster.step CreatesOwn .start calls := by
  intro promise
  have second := (promise [.create someMemory 0x400000 [], .create someMemory 0x500000 []]).2.1
  exact (second 0 _ rfl ⟨0, 1⟩ (List.mem_singleton.mpr rfl)).1 rfl

end Systrix.Proc
