import Systrix.Proc.Context

/-!
# Contexts that are kept

When the frame of an interrupted process is still there once `timer_isr` resumes the
process.
-/

namespace Systrix.Proc

open Machine WordMemory

variable {layout : StackLayout}

/-! ## Conditions -/

/-- A region holds no saved frame of a process other than `p`. -/
def Core.ClearOfFrames (s : Core) (p : Option Nat) (r : Region) : Prop :=
  ∀ q f, p ≠ some q → s.saved q = some f → r.Apart f.region

/-- A region is not on the stack of an unfinished call of a process other than `p`. -/
def Core.ClearOfCalls (s : Core) (p : Option Nat) (r : Region) : Prop :=
  ∀ q c, p ≠ some q → s.calls q = some c → r.Apart c.region

/-- What `process_run` writes on the stack of a process. -/
def startRegion (pcb : Pcb) : Region :=
  ⟨pcb.kstack - startBytes, pcb.kstack - startBytes + startBytes⟩

/-- Of a timer interrupt: the process that executes is the one found running, or there is
none to change to; and the stack of the interrupt holds nothing of another process.  Of a
call or a start: its stack holds no frame of another process. -/
def FrameSafe (layout : StackLayout) (s : Core) : Core.Op → Prop
  | .tick depth _ _ =>
      s.cpu.interruptible →
        (processCurrentPcb s.kernel = s.executing ∨ timerTarget s.kernel = none) ∧
        s.ClearOfFrames s.executing (interruptRegion layout s.cpu depth) ∧
        s.ClearOfCalls s.executing (interruptRegion layout s.cpu depth)
  | .enter depth _ =>
      s.ClearOfFrames s.executing ⟨callTop layout s.kernel - depth, callTop layout s.kernel⟩
  | .run pid _ =>
      ∀ i, pcbOfPid s.kernel pid = some i →
        s.ClearOfFrames (some i) (startRegion (s.kernel.table i))
  | _ => True

/-- A process is resumed with the context it was interrupted with, and its frame was
recorded before another process was resumed. -/
def Event.ContextKept : Event → Prop
  | .resumed interrupted loaded => loaded = interrupted
  | .switched addr kstack => kstack = addr
  | _ => True

instance : DecidablePred Event.ContextKept
  | .resumed interrupted loaded =>
      decidable_of_iff (∀ i, loaded i = interrupted i) funext_iff.symm
  | .switched addr kstack => inferInstanceAs (Decidable (kstack = addr))
  | .started .. => isTrue trivial
  | .returned .. => isTrue trivial

/-! ## Frames -/

/-- The saved frames are recorded and intact, and no unfinished call of another process
will write to them. -/
structure FramesKept (s : Core) : Prop where
  idle : ∀ p f, s.saved p = some f → s.executing ≠ some p
  recorded : ∀ p f, s.saved p = some f → (s.kernel.table p).kstack = f.addr
  intact : ∀ p f, s.saved p = some f → readWords s.mem f.addr = f.context
  apart : ∀ p q f c, q ≠ p → s.saved p = some f → s.calls q = some c → c.region.Apart f.region
  log : ∀ event ∈ s.log, event.ContextKept

/-- An entry of a table with one entry removed is one of the table, and not the removed. -/
theorem update_none {β : Type} {entries : Nat → Option β} {i p : Nat} {b : β}
    (some : Function.update entries i none p = some b) : p ≠ i ∧ entries p = .some b := by
  by_cases same : p = i
  · subst same
    rw [Function.update_self] at some
    cases some
  · exact ⟨same, (Function.update_of_ne same none entries) ▸ some⟩

theorem framesKept_boot (mem : Stack) (cpu : Context) : FramesKept (Core.boot mem cpu) where
  idle := fun _ _ saved => by cases saved
  recorded := fun _ _ saved => by cases saved
  intact := fun _ _ saved => by cases saved
  apart := fun _ _ _ _ _ saved => by cases saved
  log := fun _ member => by cases member

/-- A frame outside a region that changed is intact. -/
theorem FramesKept.intact_of {s : Core} (kept : FramesKept s) {r : Region} {mem : Stack}
    (same : SameOutside r s.mem mem) {p : Option Nat} (clear : s.ClearOfFrames p r) {q : Nat}
    {f : Interrupted} (other : p ≠ some q) (saved : s.saved q = some f) :
    readWords mem f.addr = f.context := by
  rw [← kept.intact q f saved]
  exact readWords_apart same (clear q f other saved)

theorem FramesKept.leave {s : Core} (kept : FramesKept s) : FramesKept s.leave := by
  unfold Core.leave
  split
  · exact kept
  · split
    · exact kept
    · refine ⟨kept.idle, kept.recorded, kept.intact, fun p q f c other saved calls => ?_, ?_⟩
      · exact kept.apart p q f c other saved (update_none calls).2
      · intro event member
        rcases List.mem_append.mp member with old | new
        · exact kept.log event old
        · rw [List.mem_singleton.mp new]
          trivial

theorem FramesKept.advance {s : Core} (kept : FramesKept s) (cpu : Context) (garbage : Nat → Nat) :
    FramesKept (s.advance cpu garbage) := by
  unfold Core.advance
  split
  · exact ⟨kept.idle, kept.recorded, kept.intact, kept.apart, kept.log⟩
  · rename_i e executing
    split
    · split
      · exact ⟨kept.idle, kept.recorded, kept.intact, kept.apart, kept.log⟩
      · exact kept
    · rename_i call calls
      split
      · refine ⟨kept.idle, kept.recorded, fun p f saved => ?_, kept.apart, kept.log⟩
        -- the code of a call writes its own stack alone
        have other : e ≠ p := fun same => kept.idle p f saved (executing.trans (congrArg some same))
        rw [← kept.intact p f saved]
        refine readWords_apart (fill_outside _ _ _) ?_
        exact (kept.apart p e f call other saved calls).mono (Nat.le_refl _) (Nat.sub_le _ _)
      · exact kept

theorem FramesKept.enter {s : Core} (kept : FramesKept s) (depth handler : Nat)
    (clear : FrameSafe layout s (.enter depth handler)) :
    FramesKept (s.enter layout depth handler) := by
  unfold Core.enter
  split
  · exact kept
  · rename_i e executing
    dsimp only
    split
    · rename_i guard
      have clear' : s.ClearOfFrames s.executing
          ⟨callTop layout s.kernel - depth, callTop layout s.kernel⟩ := clear
      refine ⟨kept.idle, fun p f saved => ?_, fun p f saved => ?_, ?_, ?_⟩
      · rw [noteCaller_kstack]
        exact kept.recorded p f saved
      · have same := storeWords_outside s.mem (callTop layout s.kernel - callBytes) (callWords s.cpu)
        refine kept.intact_of (same.mono ?_ ?_) clear' (kept.idle p f saved) saved
        · exact Nat.sub_le_sub_left guard.2.2.1 _
        · show callTop layout s.kernel - callBytes + 8 * 8 ≤ callTop layout s.kernel
          have fits := guard.2.2.2
          unfold callBytes at *
          omega
      · intro p q f c other saved calls
        dsimp only at calls
        by_cases same : q = e
        · subst same
          rw [Function.update_self] at calls
          cases calls
          exact clear' p f (kept.idle p f saved) saved
        · rw [Function.update_of_ne same] at calls
          exact kept.apart p q f c other saved calls
      · intro event member
        rcases List.mem_append.mp member with old | new
        · exact kept.log event old
        · rw [List.mem_singleton.mp new]
          trivial
    · exact kept

theorem FramesKept.create {s : Core} (kept : FramesKept s) (r : Resources) (entry : Nat)
    (name : List UInt8) : FramesKept (s.create r entry name) := by
  unfold Core.create
  split
  · exact kept
  · rename_i i kernel created
    obtain ⟨-, cr3, kstack_base, rfl⟩ := createIn_spec created
    refine ⟨fun p f saved => ?_, fun p f saved => ?_, fun p f saved => ?_, ?_, kept.log⟩
    · split
      · exact fun none => by cases none
      · exact kept.idle p f (update_none saved).2
    · obtain ⟨other, saved⟩ := update_none saved
      rw [setPcb_table_of_ne _ _ _ other]
      exact kept.recorded p f saved
    · exact kept.intact p f (update_none saved).2
    · intro p q f c other saved calls
      exact kept.apart p q f c other (update_none saved).2 (update_none calls).2

theorem FramesKept.run {s : Core} (kept : FramesKept s) {pid : Nat} (cpu : Context)
    (clear : FrameSafe layout s (.run pid cpu)) : FramesKept (s.run pid cpu) := by
  unfold Core.run
  split
  · exact kept
  · rename_i i found
    refine ⟨fun p f saved => ?_, fun p f saved => ?_, fun p f saved => ?_, ?_, kept.log⟩
    · exact fun same => (update_none saved).1 (Option.some.inj same).symm
    · rw [processRun_kstack]
      exact kept.recorded p f (update_none saved).2
    · obtain ⟨other, saved⟩ := update_none saved
      have started : i ≠ p := Ne.symm other
      exact kept.intact_of (storeWords_outside _ _ _) (clear i found)
        (fun same => started (Option.some.inj same)) saved
    · intro p q f c other saved calls
      exact kept.apart p q f c other (update_none saved).2 (update_none calls).2

theorem FramesKept.exit {s : Core} (kept : FramesKept s) (group : Bool) (cpu : Context) :
    FramesKept (s.exit group cpu) := by
  unfold Core.exit
  split
  · exact kept
  · refine ⟨fun _ _ _ => (Option.some_ne_none _).symm, fun p f saved => ?_, kept.intact, ?_, kept.log⟩
    · dsimp only
      split
      · rw [sysExitGroup_kstack]
        exact kept.recorded p f saved
      · rw [schedulerExit_kstack]
        exact kept.recorded p f saved
    · intro p q f c other saved calls
      exact kept.apart p q f c other saved (update_none calls).2

/-! ### The timer -/

theorem timerTarget_none {k : Kernel} (none : timerTarget k = none) :
    processCurrentPcb k = .none := by
  unfold timerTarget at none
  split at none
  · split at none <;> cases none
  · assumption

section Tick

variable {s : Core} {depth : Nat} (garbage : Nat → Nat) (cr3 : Nat)

/-- An interrupted process is the one that executed, or it was interrupted before. -/
theorem suspended_cases {addr p : Nat} {f : Interrupted} (saved : s.suspended addr p = some f) :
    s.executing = some p ∧ f = ⟨addr, s.cpu⟩ ∨ s.executing ≠ some p ∧ s.saved p = some f := by
  unfold Core.suspended at saved
  cases executing : s.executing with
  | none =>
    simp only [executing] at saved
    exact .inr ⟨(fun h => by cases h), saved⟩
  | some e =>
    simp only [executing] at saved
    by_cases same : p = e
    · subst same
      rw [Function.update_self] at saved
      exact .inl ⟨rfl, (Option.some.inj saved).symm⟩
    · rw [Function.update_of_ne same] at saved
      exact .inr ⟨fun h => same (Option.some.inj h).symm, saved⟩

/-- After an interrupt that is safe every frame is recorded and intact. -/
theorem FramesKept.suspended (kept : FramesKept s)
    (current : processCurrentPcb s.kernel = s.executing)
    (clear : s.ClearOfFrames s.executing (interruptRegion layout s.cpu depth)) {p : Nat}
    {f : Interrupted} (saved : s.suspended (frameAddr layout s.cpu) p = some f) :
    ((timerIsr s.kernel (frameAddr layout s.cpu) cr3).table p).kstack = f.addr ∧
      readWords (interruptMem layout s depth garbage) f.addr = f.context := by
  rw [timerIsr_kstack, current]
  rcases suspended_cases saved with ⟨executing, rfl⟩ | ⟨other, before⟩
  · rw [if_pos executing]
    exact ⟨rfl, readWords_interruptMem⟩
  · rw [if_neg other]
    exact ⟨kept.recorded p f before, kept.intact_of interruptMem_outside clear other before⟩

theorem FramesKept.interrupt (kept : FramesKept s)
    (safe : (processCurrentPcb s.kernel = s.executing ∨ timerTarget s.kernel = none) ∧
      s.ClearOfFrames s.executing (interruptRegion layout s.cpu depth) ∧
      s.ClearOfCalls s.executing (interruptRegion layout s.cpu depth)) :
    FramesKept (s.interrupt layout depth garbage cr3) := by
  obtain ⟨current, frames, calls⟩ := safe
  unfold Core.interrupt
  cases target : timerTarget s.kernel with
  | none =>
    refine ⟨kept.idle, fun p f saved => ?_, fun p f saved => ?_, kept.apart, ?_⟩
    · rw [timerIsr_kstack, timerTarget_none target, if_neg (fun h => by cases h)]
      exact kept.recorded p f saved
    · exact kept.intact_of interruptMem_outside frames (kept.idle p f saved) saved
    · intro event member
      rcases List.mem_append.mp member with old | new
      · exact kept.log event old
      · rw [List.mem_singleton.mp new]
        exact readWords_interruptMem
  | some next =>
    have current : processCurrentPcb s.kernel = s.executing :=
      current.resolve_right fun none => by rw [target] at none; cases none
    have known := fun {p f} => kept.suspended garbage cr3 (p := p) (f := f) current frames
    refine ⟨?_, fun p f saved => ?_, fun p f saved => ?_, fun p q f c other saved call => ?_, ?_⟩
    · exact fun p f saved same => (update_none saved).1 (Option.some.inj same).symm
    · exact (known (update_none saved).2).1
    · exact (known (update_none saved).2).2
    · rcases suspended_cases (update_none saved).2 with ⟨executing, rfl⟩ | ⟨-, before⟩
      · have ne : s.executing ≠ some q := fun h => other (Option.some.inj (h.symm.trans executing))
        have frame : Region.Apart ⟨frameAddr layout s.cpu, frameAddr layout s.cpu + frameBytes⟩ c.region :=
          (calls q c ne call).mono (interruptRegion_lo _ _ _) (Nat.le_refl _)
        exact frame.symm
      · exact kept.apart p q f c other before call
    · intro event member
      rcases List.mem_append.mp member with old | new
      · exact kept.log event old
      · rcases List.mem_append.mp new with switch | resume
        · split at switch
          · cases switch
          · rename_i e executing
            split at switch
            · cases switch
            · rw [List.mem_singleton.mp switch]
              show ((timerIsr s.kernel _ cr3).table e).kstack = _
              rw [timerIsr_kstack, current, if_pos executing]
        · split at resume
          · cases resume
          · rename_i f saved
            rw [List.mem_singleton.mp resume]
            show readWords _ ((timerIsr s.kernel _ cr3).table next).kstack = f.context
            rw [(known saved).1]
            exact (known saved).2

theorem FramesKept.tick (kept : FramesKept s)
    (safe : FrameSafe layout s (.tick depth garbage cr3)) :
    FramesKept (s.tick layout depth garbage cr3) := by
  unfold Core.tick
  split
  · rename_i on
    exact kept.interrupt garbage cr3 (safe on)
  · exact kept

end Tick

theorem FramesKept.assign {s : Core} (kept : FramesKept s) (i : Nat) (state : PState) :
    FramesKept { s with kernel := s.kernel.setState i state } := by
  refine ⟨kept.idle, fun p f saved => ?_, kept.intact, kept.apart, kept.log⟩
  rw [setState_kstack]
  exact kept.recorded p f saved

theorem FramesKept.step {s : Core} (kept : FramesKept s) {op : Core.Op}
    (safe : FrameSafe layout s op) : FramesKept (s.step layout op) := by
  cases op with
  | tick depth garbage cr3 => exact kept.tick garbage cr3 safe
  | enter depth handler => exact kept.enter depth handler safe
  | leave => exact kept.leave
  | advance cpu garbage => exact kept.advance cpu garbage
  | create r entry name => exact kept.create r entry name
  | run pid cpu => exact kept.run cpu safe
  | exit group cpu => exact kept.exit group cpu
  | assign i state => exact kept.assign i state

/-- In a run whose steps are all safe every process is resumed with the context it was
interrupted with, recorded in its own process control block. -/
theorem contexts_kept {mem : Stack} {cpu : Context} {ops : List Core.Op}
    (safe : Run.Meets (Core.step layout) (FrameSafe layout) (Core.boot mem cpu) ops) :
    ∀ event ∈ (Run.final (Core.step layout) (Core.boot mem cpu) ops).log, event.ContextKept :=
  (safe.invariant (fun _ _ kept safe => FramesKept.step kept safe) (framesKept_boot mem cpu)).log

section Fork

def exampleLayout : StackLayout := ⟨0x10000, 0x20000⟩

/-- A context with interrupts on. -/
def contextAt (rip cs rsp : Nat) : Context :=
  ![0, 0, 0, 0, 0, 0, 0, 0, 0, 0, 0, 0, 0, 0, 0, rip, cs, 0x202, rsp, 0]

/-- The shell, on a stack of its own. -/
def shellContext : Context := contextAt 0x1000 0x10 0x8000

def exampleBoot : Core := Core.boot (fun _ => 0) shellContext

/-- A process is created and started. -/
def startOps (kstack_base entry pid : Nat) : List Core.Op :=
  [.create ⟨some pid, some kstack_base, none⟩ entry [], .run pid (fun _ => 0)]

/-- A process starts a child with `sys_fork`. -/
def forkOps : List Core.Op :=
  startOps 0x30000 0x400000 1 ++ [.enter 512 0x2000] ++ startOps 0x40000 0x400000 2

/-- The child is interrupted, and what is resumed exits; a third process is started and
interrupted. -/
def interruptedFork : List Core.Op :=
  forkOps ++ [.tick 256 (fun _ => 0) 2, .exit false shellContext] ++ startOps 0x50000 0x500000 3 ++
    [.tick 256 (fun _ => 0) 3]

theorem interruptedFork_loses_context :
    ¬ ∀ event ∈ (Run.final (Core.step exampleLayout) exampleBoot interruptedFork).log,
      event.ContextKept := by
  decide +kernel

end Fork

/-- No process is interrupted, and none but `p` has a call under way. -/
structure Core.Quiet (s : Core) (p : Option Nat) : Prop where
  saved : ∀ q, s.saved q = none
  calls : ∀ q, p ≠ some q → s.calls q = none

section Quiet

variable {s : Core} {p : Option Nat}

theorem Core.Quiet.clearOfFrames (quiet : s.Quiet p) (r : Region) (q : Option Nat) :
    s.ClearOfFrames q r := fun q f _ saved => by
  rw [quiet.saved q] at saved
  cases saved

theorem Core.Quiet.clearOfCalls (quiet : s.Quiet p) (r : Region) : s.ClearOfCalls p r :=
  fun q c other call => by
    rw [quiet.calls q other] at call
    cases call

/-- Removing an entry from an empty table. -/
theorem update_none_quiet {β : Type} {entries : Nat → Option β} (i : Nat) {q : Nat}
    (quiet : entries q = none) : Function.update entries i none q = none := by
  by_cases same : q = i
  · subst same
    exact Function.update_self q none entries
  · rw [Function.update_of_ne same, quiet]

theorem Core.Quiet.create (quiet : s.Quiet p) (r : Resources) (entry : Nat) (name : List UInt8) :
    (s.create r entry name).Quiet p := by
  unfold Core.create
  split
  · exact quiet
  · exact ⟨fun q => update_none_quiet _ (quiet.saved q),
      fun q other => update_none_quiet _ (quiet.calls q other)⟩

theorem Core.Quiet.run (quiet : s.Quiet p) (pid : Nat) (cpu : Context) : (s.run pid cpu).Quiet p := by
  unfold Core.run
  split
  · exact quiet
  · exact ⟨fun q => update_none_quiet _ (quiet.saved q),
      fun q other => update_none_quiet _ (quiet.calls q other)⟩

/-- The call of the executing process is the only one. -/
theorem Core.Quiet.enter (quiet : s.Quiet none) (layout : StackLayout) (depth handler : Nat) :
    (s.enter layout depth handler).Quiet s.executing := by
  have calls := fun q => quiet.calls q (Option.some_ne_none q).symm
  unfold Core.enter
  cases executing : s.executing with
  | none => exact quiet
  | some e =>
    dsimp only
    split
    · refine ⟨quiet.saved, fun q other => ?_⟩
      have ne : q ≠ e := fun same => other (congrArg some same.symm)
      dsimp only
      rw [Function.update_of_ne ne, calls]
    · exact ⟨quiet.saved, fun q _ => calls q⟩

theorem Core.Quiet.advance (quiet : s.Quiet p) (cpu : Context) (garbage : Nat → Nat) :
    (s.advance cpu garbage).Quiet p := by
  unfold Core.advance
  split
  · exact ⟨quiet.saved, quiet.calls⟩
  · split
    · split
      · exact ⟨quiet.saved, quiet.calls⟩
      · exact quiet
    · split
      · exact ⟨quiet.saved, quiet.calls⟩
      · exact quiet

theorem quiet_boot (mem : Stack) (cpu : Context) : (Core.boot mem cpu).Quiet none :=
  ⟨fun _ => rfl, fun _ _ => rfl⟩

end Quiet

theorem contexts_kept_oneProcess :
    let s := Run.final (Core.step exampleLayout) (Core.boot (fun _ => 0) shellContext)
      (startOps 0x30000 0x400000 1 ++ [.tick 256 (fun _ => 0) 1])
    s.executing = some 0 ∧ ∀ event ∈ s.log, event.ContextKept := by
  have created := (quiet_boot (fun _ => 0) shellContext).create ⟨some 1, some 0x30000, none⟩ 0x400000 []
  have started := created.run 1 fun _ => 0
  refine ⟨by decide +kernel,
    contexts_kept ⟨trivial, fun i _ => ?_, fun _ => ⟨.inl ?_, ?_, ?_⟩, trivial⟩⟩
  · exact created.clearOfFrames _ _
  · decide +kernel
  · exact started.clearOfFrames _ _
  · exact fun q c _ => started.clearOfCalls _ q c (Option.some_ne_none q).symm

end Systrix.Proc
