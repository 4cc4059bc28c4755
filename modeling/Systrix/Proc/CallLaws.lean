import Systrix.Proc.ContextLaws

/-!
# Calls that return

When `syscall_entry` returns each caller to its own stack pointer and address, and no
call begins on a stack that another process still needs.
-/

namespace Systrix.Proc

open Machine WordMemory

variable {layout : StackLayout}

/-- Of a timer interrupt, besides: a process that is resumed was interrupted.  Of a call:
its process is the one found running, no other call is unfinished, and its stack leaves
out the frame of an interrupt from ring 3.  Of a start: it writes to no unfinished call. -/
def CallSafe (layout : StackLayout) (s : Core) : Core.Op → Prop
  | .tick depth garbage cr3 =>
      FrameSafe layout s (.tick depth garbage cr3) ∧
        ∀ next, timerTarget s.kernel = some next → s.executing ≠ some next → s.saved next ≠ none
  | .enter depth _ =>
      ∀ e, s.executing = some e →
        processCurrentPcb s.kernel = some e ∧ (∀ q, q ≠ e → s.calls q = none) ∧
        Region.Apart ⟨(s.kernel.table e).kstack - depth, (s.kernel.table e).kstack⟩
          ⟨layout.rsp0 - frameBytes, layout.rsp0 - frameBytes + frameBytes⟩
  | .run pid cpu =>
      FrameSafe layout s (.run pid cpu) ∧
        ∀ i, pcbOfPid s.kernel pid = some i →
          s.ClearOfCalls (some i) (startRegion (s.kernel.table i))
  | _ => True

/-- A call returns to the stack pointer and address of its caller, and a call that starts
uses no stack on which another process has a saved frame or an unfinished call. -/
def Event.CallKept : Event → Prop
  | .returned call rsp rip => rsp = call.rsp ∧ rip = call.rip
  | .started caller call saved calls =>
      ∀ q, q ≠ caller →
        (∀ f, saved q = some f → call.region.Apart f.region) ∧
          ∀ c, calls q = some c → call.region.Apart c.region
  | _ => True

/-- Where a process executes: in ring 3, or on the stack of its call. -/
def Fits : Option Syscall → Context → Prop
  | none, cpu => cpu.user = true
  | some call, cpu =>
      cpu.user = false ∧ call.top ≤ cpu.rsp + call.depth ∧ cpu.rsp + callBytes ≤ call.top

/-- One call is unfinished at most, what it needs to return is in place, and each process
executes where it should. -/
structure CallsKept (layout : StackLayout) (s : Core) : Prop where
  frames : FramesKept s
  one : ∀ p q c d, s.calls p = some c → s.calls q = some d → p = q
  sized : ∀ p c, s.calls p = some c → callBytes ≤ c.depth ∧ c.depth + frameBytes + 16 ≤ c.top
  stackPointer : ∀ p c, s.calls p = some c → s.sc_user_rsp = c.rsp
  pushed : ∀ p c, s.calls p = some c → s.mem (c.top - 8) = c.rip
  runs : ∀ p, s.executing = some p → Fits (s.calls p) s.cpu
  saves : ∀ p f, s.saved p = some f →
    Fits (s.calls p) f.context ∧ f.addr = frameAddr layout f.context
  log : ∀ event ∈ s.log, event.CallKept

theorem callsKept_boot (mem : Stack) (cpu : Context) : CallsKept layout (Core.boot mem cpu) where
  frames := framesKept_boot mem cpu
  one := fun _ _ _ _ call => by cases call
  sized := fun _ _ call => by cases call
  stackPointer := fun _ _ call => by cases call
  pushed := fun _ _ call => by cases call
  runs := fun _ executing => by cases executing
  saves := fun _ _ saved => by cases saved
  log := fun _ member => by cases member

section Calls

variable {s : Core} (kept : CallsKept layout s)

include kept

/-- The return address of a call that a region leaves out. -/
theorem CallsKept.pushed_of {r : Region} {mem : Stack} (same : SameOutside r s.mem mem) {p : Nat}
    {c : Syscall} (call : s.calls p = some c) (apart : r.Apart c.region) :
    mem (c.top - 8) = c.rip := by
  rw [← kept.pushed p c call]
  refine same _ ?_
  have sized := kept.sized p c call
  unfold Region.Apart Syscall.region at apart
  unfold callBytes frameBytes at sized
  dsimp only at apart
  omega

/-- An interrupted process without a call has its frame below `rsp0`. -/
theorem CallsKept.frame_user {p : Nat} {f : Interrupted} (saved : s.saved p = some f)
    (noCall : s.calls p = none) : f.addr = layout.rsp0 - frameBytes := by
  obtain ⟨fits, addr⟩ := kept.saves p f saved
  rw [noCall] at fits
  have user : f.context.user = true := fits
  rw [addr, frameAddr, if_pos user]

/-- What holds of the calls holds of those that are left when one of them ends. -/
theorem CallsKept.without (e : Nat) :
    (∀ p q c d, Function.update s.calls e none p = some c → Function.update s.calls e none q = some d → p = q)
      ∧ (∀ p c, Function.update s.calls e none p = some c → callBytes ≤ c.depth ∧ c.depth + frameBytes + 16 ≤ c.top)
      ∧ (∀ p c, Function.update s.calls e none p = some c → s.sc_user_rsp = c.rsp)
      ∧ ∀ p c, Function.update s.calls e none p = some c → s.mem (c.top - 8) = c.rip :=
  ⟨fun p q c d call call' => kept.one p q c d (update_none call).2 (update_none call').2,
    fun p c call => kept.sized p c (update_none call).2, fun p c call => kept.stackPointer p c (update_none call).2,
    fun p c call => kept.pushed p c (update_none call).2⟩

/-- An interrupted process does not execute, so a change of the calls of the one that does is none of its own. -/
theorem CallsKept.saves_update {e : Nat} (executing : s.executing = some e) (call : Option Syscall) {p : Nat}
    {f : Interrupted} (saved : s.saved p = some f) :
    Fits (Function.update s.calls e call p) f.context ∧ f.addr = frameAddr layout f.context := by
  have other : p ≠ e := fun same => kept.frames.idle p f saved (executing.trans (congrArg some same.symm))
  rw [Function.update_of_ne other]
  exact kept.saves p f saved

theorem CallsKept.leave : CallsKept layout s.leave := by
  have frames := kept.frames.leave
  unfold Core.leave at frames ⊢
  cases executing : s.executing with
  | none => exact kept
  | some e =>
    cases call : s.calls e with
    | none => simpa only [executing, call] using kept
    | some c =>
      simp only [executing, call] at frames ⊢
      obtain ⟨one, sized, stackPointer, pushed⟩ := kept.without e
      refine ⟨frames, one, sized, stackPointer, pushed, ?_, ?_, ?_⟩
      · intro p same
        cases same
        dsimp only
        rw [Function.update_self]
        exact sysret_user _ _ _ _
      · exact fun _ _ saved => kept.saves_update executing none saved
      · intro event member
        rcases List.mem_append.mp member with old | new
        · exact kept.log event old
        · rw [List.mem_singleton.mp new]
          refine ⟨kept.stackPointer e c call, ?_⟩
          rw [← kept.pushed e c call]
          have sized := kept.sized e c call
          have last : c.top - callBytes + 8 * 7 = c.top - 8 := by
            unfold callBytes frameBytes at *
            omega
          exact congrArg s.mem last

theorem CallsKept.advance (cpu : Context) (garbage : Nat → Nat) :
    CallsKept layout (s.advance cpu garbage) := by
  have frames := kept.frames.advance cpu garbage
  unfold Core.advance at frames ⊢
  cases executing : s.executing with
  | none =>
    simp only [executing] at frames ⊢
    exact ⟨frames, kept.one, kept.sized, kept.stackPointer, kept.pushed,
      fun _ same => (by cases same), kept.saves, kept.log⟩
  | some e =>
    cases call : s.calls e with
    | none =>
      simp only [executing, call] at frames ⊢
      by_cases user : cpu.user = true
      · rw [if_pos user] at frames ⊢
        refine ⟨frames, kept.one, kept.sized, kept.stackPointer, kept.pushed, fun p same => ?_,
          kept.saves, kept.log⟩
        cases same
        dsimp only
        rw [call]
        exact user
      · rw [if_neg user]
        exact kept
    | some c =>
      simp only [executing, call] at frames ⊢
      by_cases fits : cpu.user = false ∧ c.top ≤ cpu.rsp + c.depth ∧ cpu.rsp + callBytes ≤ c.top
      · rw [if_pos fits] at frames ⊢
        refine ⟨frames, kept.one, kept.sized, kept.stackPointer, fun p d call' => ?_, fun p same => ?_,
          kept.saves, kept.log⟩
        · -- the only call is that of the executing process, whose code stays below its pushes
          have same := kept.one p e d c call' call
          subst same
          cases call.symm.trans call'
          have sized := kept.sized p c call
          rw [← kept.pushed p c call]
          refine fill_outside _ _ _ _ (.inr ?_)
          unfold callBytes frameBytes at *
          dsimp only
          omega
        · cases same
          dsimp only
          rw [call]
          exact fits
      · rw [if_neg fits]
        exact kept

theorem CallsKept.create (r : Resources) (entry : Nat) (name : List UInt8) :
    CallsKept layout (s.create r entry name) := by
  have frames := kept.frames.create r entry name
  unfold Core.create at frames ⊢
  split
  · exact kept
  · rename_i i kernel created
    rw [created] at frames
    obtain ⟨one, sized, stackPointer, pushed⟩ := kept.without i
    refine ⟨frames, one, sized, stackPointer, pushed, ?_, ?_, kept.log⟩
    · intro p same
      dsimp only at same ⊢
      split at same
      · cases same
      · rename_i other
        have ne : p ≠ i := fun h => other (same.trans (congrArg some h))
        rw [Function.update_of_ne ne]
        exact kept.runs p same
    · intro p f saved
      obtain ⟨ne, saved⟩ := update_none saved
      dsimp only
      rw [Function.update_of_ne ne]
      exact kept.saves p f saved

theorem CallsKept.run {pid : Nat} (cpu : Context) (safe : CallSafe layout s (.run pid cpu)) :
    CallsKept layout (s.run pid cpu) := by
  have frames := kept.frames.run cpu safe.1
  unfold Core.run at frames ⊢
  split
  · exact kept
  · rename_i i found
    rw [found] at frames
    obtain ⟨one, sized, stackPointer, -⟩ := kept.without i
    refine ⟨frames, one, sized, stackPointer, ?_, ?_, ?_, kept.log⟩
    · intro p c call
      obtain ⟨ne, call⟩ := update_none call
      have started : some i ≠ some p := fun h => ne (Option.some.inj h).symm
      exact kept.pushed_of (storeWords_outside _ _ _) call (safe.2 i found p c started call)
    · intro p same
      cases same
      dsimp only
      rw [Function.update_self]
      exact decide_eq_true (rfl : 0x2b % 4 = 3)
    · intro p f saved
      obtain ⟨ne, saved⟩ := update_none saved
      dsimp only
      rw [Function.update_of_ne ne]
      exact kept.saves p f saved

theorem CallsKept.exit (group : Bool) (cpu : Context) : CallsKept layout (s.exit group cpu) := by
  have frames := kept.frames.exit group cpu
  unfold Core.exit at frames ⊢
  cases executing : s.executing with
  | none => exact kept
  | some e =>
    simp only [executing] at frames ⊢
    obtain ⟨one, sized, stackPointer, pushed⟩ := kept.without e
    exact ⟨frames, one, sized, stackPointer, pushed, fun _ same => (by cases same),
      fun _ _ saved => kept.saves_update executing none saved, kept.log⟩

/-- The stack of a call that is safe holds nothing of another process. -/
theorem CallsKept.enter_clear {depth handler e : Nat}
    (safe : CallSafe layout s (.enter depth handler)) (executing : s.executing = some e) {q : Nat}
    {f : Interrupted} (other : q ≠ e) (saved : s.saved q = some f) :
    Region.Apart ⟨callTop layout s.kernel - depth, callTop layout s.kernel⟩ f.region := by
  obtain ⟨current, alone, apart⟩ := safe e executing
  unfold Interrupted.region callTop
  rw [current, kept.frame_user saved (alone q other)]
  exact apart

theorem CallsKept.enter {depth : Nat} (handler : Nat) (safe : CallSafe layout s (.enter depth handler)) :
    CallsKept layout (s.enter layout depth handler) := by
  cases executing : s.executing with
  | none =>
    unfold Core.enter
    simp only [executing]
    exact kept
  | some e =>
    have clear := fun {q f} => kept.enter_clear (q := q) (f := f) safe executing
    have frames := kept.frames.enter depth handler fun q f other saved =>
      clear (fun same => other (executing.trans (congrArg some same.symm))) saved
    obtain ⟨-, alone, -⟩ := safe e executing
    unfold Core.enter at frames ⊢
    simp only [executing] at frames ⊢
    split
    · rename_i guard
      rw [if_pos guard] at frames
      obtain ⟨noCall, user, depth_le, top_le⟩ := guard
      -- the call that starts is the only one
      have only : ∀ {p c},
          Function.update s.calls e (some ⟨s.cpu.rsp, s.cpu.rip, callTop layout s.kernel, depth⟩) p =
            some c → p = e ∧ c = ⟨s.cpu.rsp, s.cpu.rip, callTop layout s.kernel, depth⟩ := by
        intro p c call
        by_cases same : p = e
        · subst same
          rw [Function.update_self] at call
          exact ⟨rfl, (Option.some.inj call).symm⟩
        · rw [Function.update_of_ne same, alone p same] at call
          cases call
      refine ⟨frames, ?_, ?_, ?_, ?_, ?_, ?_, ?_⟩
      · exact fun p q c d call call' => (only call).1.trans (only call').1.symm
      · intro p c call
        rw [(only call).2]
        exact ⟨depth_le, top_le⟩
      · intro p c call
        rw [(only call).2]
      · intro p c call
        rw [(only call).2]
        have last : callTop layout s.kernel - 8 = callTop layout s.kernel - callBytes + 8 * 7 := by
          unfold callBytes frameBytes at *
          omega
        dsimp only
        rw [last]
        exact storeWords_at s.mem _ (callWords s.cpu) 7
      · intro p same
        cases same
        dsimp only
        rw [Function.update_self]
        refine ⟨decide_eq_false (by decide : ¬ 0x10 % 4 = 3), ?_, ?_⟩
        · show callTop layout s.kernel ≤ callTop layout s.kernel - callBytes + depth
          omega
        · show callTop layout s.kernel - callBytes + callBytes ≤ callTop layout s.kernel
          unfold callBytes frameBytes at *
          omega
      · exact fun _ _ saved => kept.saves_update executing _ saved
      · intro event member
        rcases List.mem_append.mp member with old | new
        · exact kept.log event old
        · rw [List.mem_singleton.mp new]
          refine fun q other => ⟨fun f saved => clear other saved, fun c call => ?_⟩
          rw [alone q other] at call
          cases call
    · exact kept

/-! ### The timer -/

variable {depth : Nat} (garbage : Nat → Nat) (cr3 : Nat)

/-- The frame of an interrupt is below the pushes of the call it interrupts. -/
theorem CallsKept.frame_below {e : Nat} {c : Syscall} (executing : s.executing = some e)
    (call : s.calls e = some c) : frameAddr layout s.cpu + frameBytes ≤ c.top - callBytes := by
  have fits := kept.runs e executing
  rw [call] at fits
  obtain ⟨notUser, low, high⟩ := fits
  have sized := kept.sized e c call
  have aligned := alignDown_le s.cpu.rsp 16
  have near : s.cpu.rsp < alignDown s.cpu.rsp 16 + 16 := by
    unfold alignDown
    omega
  unfold frameAddr
  rw [if_neg (by rw [notUser]; exact Bool.false_ne_true)]
  unfold callBytes frameBytes at *
  omega

/-- An interrupt leaves the return address of every unfinished call. -/
theorem CallsKept.pushed_interrupt
    (clear : s.ClearOfCalls s.executing (interruptRegion layout s.cpu depth)) {p : Nat} {c : Syscall}
    (call : s.calls p = some c) : interruptMem layout s depth garbage (c.top - 8) = c.rip := by
  by_cases executing : s.executing = some p
  · rw [← kept.pushed p c call]
    refine interruptMem_outside _ (.inr ?_)
    have below := kept.frame_below executing call
    unfold interruptRegion callBytes at *
    dsimp only
    omega
  · exact kept.pushed_of interruptMem_outside call (clear p c executing call)

/-- Where the interrupted processes execute once they are resumed. -/
theorem CallsKept.saves_suspended {p : Nat} {f : Interrupted}
    (saved : s.suspended (frameAddr layout s.cpu) p = some f) :
    Fits (s.calls p) f.context ∧ f.addr = frameAddr layout f.context := by
  rcases suspended_cases saved with ⟨executing, rfl⟩ | ⟨-, before⟩
  · exact ⟨kept.runs p executing, rfl⟩
  · exact kept.saves p f before

theorem CallsKept.interrupt
    (safe : (processCurrentPcb s.kernel = s.executing ∨ timerTarget s.kernel = none) ∧
      s.ClearOfFrames s.executing (interruptRegion layout s.cpu depth) ∧
      s.ClearOfCalls s.executing (interruptRegion layout s.cpu depth))
    (resumes : ∀ next, timerTarget s.kernel = some next → s.executing ≠ some next →
      s.saved next ≠ none) : CallsKept layout (s.interrupt layout depth garbage cr3) := by
  have frames := kept.frames.interrupt garbage cr3 safe
  obtain ⟨current, clear, calls⟩ := safe
  have pushed := fun p c => kept.pushed_interrupt garbage (p := p) (c := c) calls
  unfold Core.interrupt at frames ⊢
  cases target : timerTarget s.kernel with
  | none =>
    simp only [target] at frames ⊢
    refine ⟨frames, kept.one, kept.sized, kept.stackPointer, pushed, fun p same => ?_, kept.saves, ?_⟩
    · dsimp only
      rw [readWords_interruptMem]
      exact kept.runs p same
    · intro event member
      rcases List.mem_append.mp member with old | new
      · exact kept.log event old
      · rw [List.mem_singleton.mp new]
        trivial
  | some next =>
    simp only [target] at frames ⊢
    have current : processCurrentPcb s.kernel = s.executing :=
      current.resolve_right fun none => by rw [target] at none; cases none
    obtain ⟨f, saved⟩ : ∃ f, s.suspended (frameAddr layout s.cpu) next = some f := by
      by_cases executing : s.executing = some next
      · refine ⟨⟨frameAddr layout s.cpu, s.cpu⟩, ?_⟩
        unfold Core.suspended
        simp only [executing]
        exact Function.update_self _ _ _
      · obtain ⟨f, before⟩ := Option.ne_none_iff_exists'.mp (resumes next target executing)
        refine ⟨f, ?_⟩
        unfold Core.suspended
        cases other : s.executing with
        | none => exact before
        | some e =>
          have ne : next ≠ e := fun same => executing (other.trans (congrArg some same.symm))
          exact (Function.update_of_ne ne _ _).trans before
    obtain ⟨recorded, intact⟩ :=
      kept.frames.suspended garbage cr3 current clear saved
    refine ⟨frames, kept.one, kept.sized, kept.stackPointer, pushed, fun p same => ?_, ?_, ?_⟩
    · cases same
      dsimp only
      rw [recorded, intact]
      exact (kept.saves_suspended saved).1
    · exact fun p f saved => kept.saves_suspended (update_none saved).2
    · intro event member
      rcases List.mem_append.mp member with old | new
      · exact kept.log event old
      · rcases List.mem_append.mp new with switch | resume
        · split at switch
          · cases switch
          · split at switch
            · cases switch
            · rw [List.mem_singleton.mp switch]
              trivial
        · rw [saved] at resume
          rw [List.mem_singleton.mp resume]
          trivial

theorem CallsKept.tick (safe : CallSafe layout s (.tick depth garbage cr3)) :
    CallsKept layout (s.tick layout depth garbage cr3) := by
  unfold Core.tick
  split
  · rename_i on
    exact kept.interrupt garbage cr3 (safe.1 on) safe.2
  · exact kept

theorem CallsKept.step {op : Core.Op} (safe : CallSafe layout s op) :
    CallsKept layout (s.step layout op) := by
  cases op with
  | tick depth garbage cr3 => exact kept.tick garbage cr3 safe
  | enter depth handler => exact kept.enter handler safe
  | leave => exact kept.leave
  | advance cpu garbage => exact kept.advance cpu garbage
  | create r entry name => exact kept.create r entry name
  | run pid cpu => exact kept.run cpu safe
  | exit group cpu => exact kept.exit group cpu
  | assign i state =>
      exact ⟨kept.frames.assign i state, kept.one, kept.sized,
        kept.stackPointer, kept.pushed, kept.runs, kept.saves, kept.log⟩

end Calls

/-- In a run whose steps are all safe every call returns to the stack pointer and address
of its caller, on a stack no other process needs. -/
theorem calls_return {mem : Stack} {cpu : Context} {ops : List Core.Op}
    (safe : Run.Meets (Core.step layout) (CallSafe layout) (Core.boot mem cpu) ops) :
    ∀ event ∈ (Run.final (Core.step layout) (Core.boot mem cpu) ops).log, event.CallKept :=
  (safe.invariant (fun _ _ kept safe => CallsKept.step kept safe) (callsKept_boot mem cpu)).log

/-! ## One process, and a child that reads a line -/

/-- A call is interrupted and returns. -/
def interruptedCall : List Core.Op :=
  [.enter 512 0x2000, .advance (contextAt 0x2000 0x10 0x30f00) (fun _ => 0), .tick 256 (fun _ => 0) 1, .leave]

theorem calls_return_oneProcess :
    let s := Run.final (Core.step exampleLayout) (Core.boot (fun _ => 0) shellContext)
      (startOps 0x30000 0x400000 1 ++ interruptedCall)
    s.executing = some 0 ∧ ∀ event ∈ s.log, event.CallKept := by
  have created := (quiet_boot (fun _ => 0) shellContext).create ⟨some 1, some 0x30000, none⟩ 0x400000 []
  have started := created.run 1 fun _ => 0
  have called := started.enter exampleLayout 512 0x2000
  have advanced := called.advance (contextAt 0x2000 0x10 0x30f00) fun _ => 0
  refine ⟨by decide +kernel, calls_return ⟨trivial, ⟨fun i _ => ?_, fun i _ q c _ => ?_⟩, ?_, trivial,
    ⟨fun _ => ⟨.inl ?_, ?_, ?_⟩, ?_⟩, trivial, trivial⟩⟩
  · exact created.clearOfFrames _ _
  · exact created.clearOfCalls _ q c (Option.some_ne_none q).symm
  · intro e executing
    obtain rfl : e = 0 := Option.some.inj (executing.symm.trans (by decide +kernel))
    exact ⟨by decide +kernel, fun q _ => started.calls q (Option.some_ne_none q).symm,
      by decide +kernel⟩
  · decide +kernel
  · exact advanced.clearOfFrames _ _
  · intro q c other call
    exact advanced.clearOfCalls _ q c (fun same => other (Eq.trans (by decide +kernel) same)) call
  · intro next target other
    exact absurd (Eq.trans (by decide +kernel) target) other

/-- The child of a fork reads a line. -/
def readingFork : List Core.Op :=
  forkOps ++
    .advance (contextAt 0x400100 0x2b 0x6fff00) (fun _ => 0) :: interruptedCall

/-- A call that has returned has returned to its caller. -/
def Event.returnedRight : Event → Bool
  | .returned call rsp rip => rsp = call.rsp ∧ rip = call.rip
  | _ => true

theorem Event.CallKept.returnedRight {event : Event} (kept : event.CallKept) :
    event.returnedRight = true := by
  cases event with
  | returned call rsp rip => exact decide_eq_true kept
  | _ => rfl

theorem readingFork_returns_elsewhere :
    ¬ ∀ event ∈ (Run.final (Core.step exampleLayout) exampleBoot readingFork).log,
      event.CallKept := fun kept => by
  have right := List.all_eq_true.mpr fun event member => (kept event member).returnedRight
  have wrong : ((Run.final (Core.step exampleLayout) exampleBoot readingFork).log.all
      Event.returnedRight) = false := by
    decide +kernel
  exact Bool.false_ne_true (wrong.symm.trans right)

end Systrix.Proc
