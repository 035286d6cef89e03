import CodiusSandbox.SandboxPrivate
import CodiusSandbox.Reachability
/-!
# Registers and arguments at a seccomp stop (`sandbox.cpp:396-455`)

`handleSeccompEvent` takes the fourth argument from `rcx` and puts it back there. The kernel's fourth argument
is in `r10`, and `rcx` has the address that the `syscall` instruction returns to.

* `marshals_iff` — when the handlers see the kernel's call and the kernel gets the handlers'.
* `openat_mode`  — the mode that `Filesystem::open` gets for an `openat` is made of `rcx`.
-/
namespace CodiusSandbox

open Wp

variable {F W : Type} {H : SyscallHandlers F W} {pid : Int} {s t : SandboxPrivate F W} {regs : Regs}

/-! ## Registers and calls -/

theorem carried_readCall_iff {returnVal : Word} :
    (regs.readCall returnVal).carried = regs.kernelCall ↔ regs.rcx = regs.r10 := by
  simp [SyscallCall.carried, Regs.readCall, Regs.kernelCall, List.range_succ]

theorem kernelCall_writeCall_iff {call : SyscallCall} :
    (regs.writeCall call).kernelCall = call.carried ↔ call.args 3 = regs.r10 := by
  simp [SyscallCall.carried, Regs.writeCall, Regs.kernelCall, List.range_succ, eq_comm]

/-- Where a call comes back as it was read, the kernel's own is what it was. -/
theorem kernelCall_writeCall_same {call : SyscallCall} {returnVal : Word}
    (h : call.carried = (regs.readCall returnVal).carried) : (regs.writeCall call).kernelCall = regs.kernelCall := by
  simp only [SyscallCall.carried, Regs.readCall, List.range_succ, List.range_zero, Prod.mk.injEq] at h
  simp [Regs.writeCall, Regs.kernelCall] at h ⊢
  exact ⟨h.1, h.2.1, h.2.2.1, h.2.2.2.1, h.2.2.2.2.2⟩

/-! ## A stop -/

/-- The first call that the handlers are given is the kernel's. -/
def Sees (s t : SandboxPrivate F W) (regs : Regs) : Prop :=
  ∀ first rest, t.passed = s.passed ++ first :: rest → first.carried = regs.kernelCall

/-- The call that the handlers returned is the kernel's. -/
def Takes (s t : SandboxPrivate F W) (pid : Int) : Prop :=
  ∀ calls last regs', t.passed = s.passed ++ calls ++ [last] → t.stopped pid = some regs' →
    regs'.kernelCall = last.carried

/-- Where the handlers leave the call alone, the kernel's stays as it is. -/
def Leaves (s t : SandboxPrivate F W) (pid : Int) (regs : Regs) : Prop :=
  ∀ calls regs', t.passed = s.passed ++ calls → (∀ c ∈ calls, ∀ c' ∈ calls, c.carried = c'.carried) →
    t.stopped pid = some regs' → regs'.kernelCall = regs.kernelCall

/-- The event takes the registers to the handlers and back. -/
structure Marshals (H : SyscallHandlers F W) (pid : Int) (s : SandboxPrivate F W) (regs : Regs) : Prop where
  /-- However the event ends. -/
  sees : wp (handleSeccompEvent H pid) (fun _ t => Sees s t regs) (fun _ t => Sees s t regs) s
  takes : wp (handleSeccompEvent H pid) (fun _ t => Takes s t pid) (fun _ _ => True) s
  leaves : wp (handleSeccompEvent H pid) (fun _ t => Leaves s t pid regs) (fun _ _ => True) s

/-- The call that the handlers are given first. -/
def SandboxPrivate.call (s : SandboxPrivate F W) (regs : Regs) : SyscallCall :=
  regs.readCall s.sandbox.tracer.stack.word

theorem handleSeccompEvent_early (h : s.enteredMain = false) : handleSeccompEvent H pid s = .ok () s := by
  rw [handleSeccompEvent, bind_get, if_neg (by simp [h])]
  rfl

/-- A handler fails, or both return. -/
theorem handleCall_cases (H : SyscallHandlers F W) (s : SandboxPrivate F W) (call : SyscallCall) :
    (∃ e rest t, H.run call s.sandbox = .error e t.sandbox ∧ handleCall H call s = .error (.crash e) t ∧
      t.passed = s.passed ++ call :: rest) ∨
    (∃ second ret u, H.run call s.sandbox = .ok ret u ∧
      handleCall H call s = .ok ret { s with sandbox := u, passed := s.passed ++ [call, second, ret] }) := by
  let u₀ : Sandbox F W := { s.sandbox with nextScratchSegment := s.sandbox.scratchAddr }
  have hreset (p : List SyscallCall) : onSandbox resetScratch { s with passed := p } =
      .ok () { s with sandbox := u₀, passed := p } := onSandbox_ok rfl
  have hrun : H.run call s.sandbox = (H.sandbox call >>= fun call => onTracer (H.vfs call)) u₀ := rfl
  rw [handleCall, logCall, bind_modify, bind_ok (hreset _)]
  cases hfirst : H.sandbox call u₀ with
  | error e u =>
    refine .inl ⟨e, [], { s with sandbox := u, passed := s.passed ++ [call] }, ?_, ?_, rfl⟩
    · rw [hrun, bind_error hfirst]
    · rw [bind_error (onSandbox_error hfirst)]
  | ok second u =>
    rw [bind_ok (onSandbox_ok hfirst), logCall, bind_modify]
    cases hsecond : onTracer (H.vfs second) u with
    | error e u' =>
      refine .inl ⟨e, [second], { s with sandbox := u', passed := s.passed ++ [call] ++ [second] }, ?_, ?_, by simp⟩
      · rw [hrun, bind_ok hfirst, hsecond]
      · rw [bind_error (onSandbox_error hsecond)]
    | ok ret u' =>
      refine .inr ⟨second, ret, u', by rw [hrun, bind_ok hfirst, hsecond], ?_⟩
      rw [bind_ok (onSandbox_ok hsecond), logCall, bind_modify]
      simp only [List.append_assoc, List.cons_append, List.nil_append]
      rfl

/-- What the event can do: it ends early, since a handler fails or gives the process up, or the registers are
written from the call that the handlers return. -/
theorem handleSeccompEvent_cases (H : SyscallHandlers F W) (h : s.enteredMain = true)
    (hr : s.stopped pid = some regs) :
    (∃ e rest t, handleSeccompEvent H pid s = .error e t ∧ t.passed = s.passed ++ s.call regs :: rest ∧
      wp (H.run (s.call regs)) (fun _ u => u = t.sandbox ∧ u.Detached pid) (fun _ u => u = t.sandbox) s.sandbox) ∨
    (∃ second ret t, handleSeccompEvent H pid s = .ok () t ∧ t.passed = s.passed ++ [s.call regs, second, ret] ∧
      t.stopped pid = some (regs.writeCall ret) ∧ H.run (s.call regs) s.sandbox = .ok ret t.sandbox ∧
      ¬ t.sandbox.Detached pid) := by
  have hregs : s.regs pid = some regs := by
    unfold SandboxPrivate.stopped at hr
    split at hr
    · cases hr
    · exact hr
  rw [handleSeccompEvent, bind_get, if_pos h, bind_ok (getRegs_stopped hr)]
  rcases handleCall_cases H s (s.call regs) with ⟨e, rest, t, hrun, herror, hlog⟩ | ⟨second, ret, u, hrun, hok⟩
  · exact .inl ⟨.crash e, rest, t, bind_error herror, hlog, (wp_error hrun).2 rfl⟩
  · rw [SandboxPrivate.call] at hok
    rw [bind_ok hok]
    by_cases hd : u.Detached pid
    · exact .inl ⟨_, [second, ret], _, setRegs_gone (if_pos hd), rfl, (wp_ok hrun).2 ⟨rfl, hd⟩⟩
    · have hstopped : ({ s with sandbox := u, passed := s.passed ++ [s.call regs, second, ret] } :
          SandboxPrivate F W).stopped pid = some regs := (if_neg hd).trans hregs
      exact .inr ⟨second, ret, _, setRegs_stopped hstopped, rfl, (if_neg hd).trans (Function.update_self ..), hrun, hd⟩

/-! ## What reaches the handlers and the kernel -/

theorem sees_iff {rest : List SyscallCall} (h : t.passed = s.passed ++ s.call regs :: rest) :
    Sees s t regs ↔ regs.rcx = regs.r10 := by
  have hcall : (s.call regs).carried = regs.kernelCall ↔ regs.rcx = regs.r10 := carried_readCall_iff
  rw [← hcall]
  constructor
  · intro hsees
    exact hsees _ _ h
  · intro hc first rest' hlog
    rw [h] at hlog
    obtain ⟨rfl, -⟩ := List.cons.inj (List.append_cancel_left hlog)
    exact hc

theorem takes_iff {calls : List SyscallCall} {ret : SyscallCall} (h : t.passed = s.passed ++ calls ++ [ret])
    (hregs : t.stopped pid = some (regs.writeCall ret)) : Takes s t pid ↔ ret.args 3 = regs.r10 := by
  rw [← kernelCall_writeCall_iff]
  constructor
  · intro htakes
    exact htakes _ _ _ h hregs
  · intro hc calls' last regs' hlog hregs'
    rw [hregs] at hregs'
    cases hregs'
    rw [h] at hlog
    obtain ⟨-, hlast⟩ := List.append_inj' hlog rfl
    cases hlast
    exact hc

theorem leaves_written {second ret : SyscallCall} (h : t.passed = s.passed ++ [s.call regs, second, ret])
    (hregs : t.stopped pid = some (regs.writeCall ret)) : Leaves s t pid regs := by
  intro calls regs' hlog hsame hregs'
  rw [hregs] at hregs'
  cases hregs'
  rw [h] at hlog
  cases List.append_cancel_left hlog
  exact kernelCall_writeCall_same (hsame ret (by simp) (s.call regs) (by simp))

/-- Before the child has entered its main program, no handler is called and nothing is written. -/
theorem marshals_early (h : s.enteredMain = false) (hr : s.stopped pid = some regs) : Marshals H pid s regs := by
  have hrun : handleSeccompEvent H pid s = .ok () s := handleSeccompEvent_early h
  constructor
  case sees =>
    rw [wp_ok hrun]
    intro first rest hlog
    simp at hlog
  case takes =>
    rw [wp_ok hrun]
    intro calls last regs' hlog _
    simp at hlog
  case leaves =>
    rw [wp_ok hrun]
    intro calls regs' _ _ hregs'
    rw [hr] at hregs'
    cases hregs'
    rfl

theorem Marshals.rcx (h : Marshals H pid s regs) (hmain : s.enteredMain = true) (hr : s.stopped pid = some regs) :
    regs.rcx = regs.r10 := by
  rcases handleSeccompEvent_cases H hmain hr with ⟨e, rest, t, hrun, hlog, -⟩ | ⟨second, ret, t, hrun, hlog, -⟩
  · exact (sees_iff hlog).1 ((wp_error hrun).1 h.sees)
  · exact (sees_iff hlog).1 ((wp_ok hrun).1 h.sees)

/-- The handlers see the kernel's arguments if `rcx` happens to hold what `r10` does, and the kernel gets the
handlers' if they leave the fourth argument at that. -/
theorem marshals_iff (H : SyscallHandlers F W) (hr : s.stopped pid = some regs) :
    Marshals H pid s regs ↔ (s.enteredMain = true →
      regs.rcx = regs.r10 ∧
      ∀ ret u, H.run (s.call regs) s.sandbox = .ok ret u → ¬ u.Detached pid → ret.args 3 = regs.r10) := by
  by_cases hmain : s.enteredMain = true
  · rcases handleSeccompEvent_cases H hmain hr with ⟨e, rest, t, hrun, hlog, hend⟩ |
      ⟨second, ret, t, hrun, hlog, hregs, hret, hd⟩
    · constructor
      · intro h _
        exact ⟨h.rcx hmain hr, fun ret u hret hnd => absurd ((wp_ok hret).1 hend).2 hnd⟩
      · intro h
        exact ⟨(wp_error hrun).2 ((sees_iff hlog).2 (h hmain).1), (wp_error hrun).2 trivial,
          (wp_error hrun).2 trivial⟩
    · have hsplit : t.passed = s.passed ++ [s.call regs, second] ++ [ret] := by simp [hlog]
      constructor
      · intro h _
        refine ⟨h.rcx hmain hr, ?_⟩
        intro ret' u hret' _
        rw [hret] at hret'
        cases hret'
        exact (takes_iff hsplit hregs).1 ((wp_ok hrun).1 h.takes)
      · intro h
        obtain ⟨hrcx, hargs⟩ := h hmain
        exact ⟨(wp_ok hrun).2 ((sees_iff hlog).2 hrcx),
          (wp_ok hrun).2 ((takes_iff hsplit hregs).2 (hargs ret t.sandbox hret hd)),
          (wp_ok hrun).2 (leaves_written hlog hregs)⟩
  · have hearly : s.enteredMain = false := by simpa using hmain
    exact ⟨fun _ h => absurd h hmain, fun _ => marshals_early hearly hr⟩

/-- Process 1, stopped with these registers; "/f" is at address 0 of its memory. -/
def stoppedWith (regs : Regs) : SandboxPrivate Fixed Unit where
  sandbox := ⟨mounted (str "/f") ⟨3⟩, 1, isInt_one, 64, 64, [], []⟩
  enteredMain := true
  regs := fun _ => some regs
  passed := []

/-- `openat (AT_FDCWD, "/f", O_WRONLY | O_CREAT, 0644)`, to return to `rcx`. -/
def openatRegs (rcx : Word) : Regs := ⟨SYS_openat, toWord (-38), toWord AT_FDCWD, 0, 65, rcx, 0, 0, 420, 4096⟩

/-- Where the fourth argument is in `rcx` too, handlers that leave it there. -/
theorem marshals_iff_same :
    (stoppedWith (openatRegs 420)).stopped 1 = some (openatRegs 420) ∧
      (Marshals ⟨pure, pure⟩ 1 (stoppedWith (openatRegs 420)) (openatRegs 420) ↔
        ((stoppedWith (openatRegs 420)).enteredMain = true →
          (openatRegs 420).rcx = (openatRegs 420).r10 ∧
          ∀ ret u, SyscallHandlers.run ⟨pure, pure⟩ ((stoppedWith (openatRegs 420)).call (openatRegs 420))
            (stoppedWith (openatRegs 420)).sandbox = .ok ret u → ¬ u.Detached 1 →
              ret.args 3 = (openatRegs 420).r10)) :=
  ⟨rfl, marshals_iff ⟨pure, pure⟩ rfl⟩

/-- The file is opened with the return address for its mode. -/
theorem openat_mode_rcx : ∃ regs, Reachable (stoppedWith regs).sandbox.tracer ∧
    (stoppedWith regs).stopped 1 = some regs ∧ regs.origRax = SYS_openat ∧ asInt regs.r10 = 420 ∧
    Returns (handleSeccompEvent .node 1)
      (fun _ t => t.sandbox.tracer.calls = [⟨⟨3⟩, .open (str "/f") 65 4198422, 3⟩]) (stoppedWith regs) ∧
    ¬ Marshals .node 1 (stoppedWith regs) regs := by
  refine ⟨openatRegs 4198422, mounted_reachable _ _, rfl, rfl, by decide, by decide +kernel, ?_⟩
  intro h
  have hrcx : (openatRegs 4198422).rcx = (openatRegs 4198422).r10 := h.rcx rfl rfl
  revert hrcx
  decide

/-! ## `openat` -/

/-- From `σ` to `τ` files are opened with this mode only. -/
def OpensWith (mode : Int) (σ τ : Tracer F W) : Prop :=
  ∃ events, τ.calls = σ.calls ++ events ∧ ∀ e ∈ events, ∀ name flags m, e.request = .open name flags m → m = mode

section Openat

variable {mode : Int} {α : Type}

theorem OpensWith.of_calls {σ τ : Tracer F W} (h : τ.calls = σ.calls) : OpensWith mode σ τ :=
  ⟨[], by rw [h, List.append_nil], by simp⟩

theorem OpensWith.trans {σ τ υ : Tracer F W} (h : OpensWith mode σ τ) (h' : OpensWith mode τ υ) :
    OpensWith mode σ υ := by
  obtain ⟨events, hτ, hevents⟩ := h
  obtain ⟨events', hυ, hevents'⟩ := h'
  refine ⟨events ++ events', by rw [hυ, hτ, List.append_assoc], ?_⟩
  intro e he
  rcases List.mem_append.1 he with he | he
  · exact hevents e he
  · exact hevents' e he

theorem opensWith_outside {x : TracerM F W α} (h : Preserves Tracer.outside x) : Advances (OpensWith mode) x :=
  .of_preserves h fun _ _ h => .of_calls (congrArg (fun o => o.2.2.2.2.2.2) h)

theorem opensWith_fsCall {fs : F} {request : Request} {result : α → Int} {op : StateM (Host W) α}
    (h : ∀ name flags m, request = .open name flags m → m = mode) :
    Advances (OpensWith mode) (fsCall fs request result op) := by
  intro σ
  rw [wp_fsCall]
  refine ⟨_, rfl, ?_⟩
  intro e he
  obtain rfl := List.mem_singleton.1 he
  exact h

variable [Filesystem F W]

theorem close_opensWith (f : File F) : Advances (OpensWith mode) (f.close : TracerM F W _) :=
  .ite (.bind .trans (opensWith_fsCall (by simp)) fun _ => opensWith_outside (.pure _)) (opensWith_outside (.pure _))

theorem destroy_opensWith (f : File F) : Advances (OpensWith mode) (f.destroy : TracerM F W _) :=
  .bind .trans (close_opensWith f) fun _ => opensWith_outside (.pure _)

theorem openFile_opensWith (call : SyscallCall) (n : Str) (flags : Int) :
    Advances (OpensWith mode) (openFile call n flags mode : TracerM F W SyscallCall) := by
  refine .ite (opensWith_outside (.pure _)) (.bind .trans (opensWith_outside (getFilesystem_outside _)) fun found => ?_)
  rcases found with _ | ⟨path, fs⟩
  · exact opensWith_outside (.pure _)
  · refine .bind .trans (opensWith_fsCall ?_) fun fd => .ite ?_ ?_
    · rintro name flags' m ⟨⟩
      rfl
    · refine .bind .trans (opensWith_outside .get) fun s => .bind .trans ?_ fun file => ?_
      · intro σ
        exact .of_calls rfl
      · exact .ite (.bind .trans (destroy_opensWith _) fun _ => opensWith_outside (.pure _))
          (opensWith_outside (.pure _))
    · exact .bind .trans (opensWith_outside .get) fun _ => opensWith_outside (.pure _)

theorem doOpenat_opensWith (call : SyscallCall) :
    Advances (OpensWith (asInt (call.args 3))) (doOpenat call : TracerM F W SyscallCall) :=
  .bind .trans (opensWith_outside (getFilename_outside _)) fun _ =>
    .bind .trans (opensWith_outside (openatName_outside _ _)) fun _ => openFile_opensWith _ _ _

theorem node_run (call : SyscallCall) : SyscallHandlers.node.run call = (seccompCall call : SandboxM F W SyscallCall) :=
  rfl

/-- The mode of a file that the event opens for an `openat` is `rcx`'s, whatever the child's fourth argument. -/
theorem openat_mode (hr : s.stopped pid = some regs) (hid : regs.origRax = SYS_openat) :
    wp (handleSeccompEvent .node pid) (fun _ t => OpensWith (asInt regs.rcx) s.sandbox.tracer t.sandbox.tracer)
      (fun _ t => OpensWith (asInt regs.rcx) s.sandbox.tracer t.sandbox.tracer) s := by
  by_cases hmain : s.enteredMain = true
  · have hcall : (s.call regs).id = SYS_openat := hid
    have hplain : Plain (s.call regs) := by
      unfold Plain
      rw [hcall]
      decide
    have hdo : handleSyscall (s.call regs) = (doOpenat (s.call regs) : TracerM F W SyscallCall) := by
      simp [handleSyscall, hcall, SYS_open, SYS_close, SYS_read, SYS_fstat, SYS_getdents, SYS_openat]
    have hrun : SyscallHandlers.node.run (s.call regs) s.sandbox =
        onTracer (doOpenat (s.call regs)) { s.sandbox with nextScratchSegment := s.sandbox.scratchAddr } := by
      rw [node_run, seccompCall_plain hplain, hdo]
    have hopens := doOpenat_opensWith (s.call regs) s.sandbox.tracer
    have hall : wp (SyscallHandlers.node.run (s.call regs))
        (fun _ u => OpensWith (asInt regs.rcx) s.sandbox.tracer u.tracer)
        (fun _ u => OpensWith (asInt regs.rcx) s.sandbox.tracer u.tracer) s.sandbox := by
      unfold wp at hopens ⊢
      rw [hrun, onTracer]
      cases hd : doOpenat (s.call regs) s.sandbox.tracer with
      | ok ret τ =>
        rw [hd] at hopens
        exact hopens
      | error e τ =>
        rw [hd] at hopens
        exact hopens
    rcases handleSeccompEvent_cases .node hmain hr with ⟨e, rest, t, hevent, -, hend⟩ |
      ⟨second, ret, t, hevent, -, -, hret, -⟩
    · rw [wp_error hevent]
      have hboth := wp_and hall hend
      unfold wp at hboth
      split at hboth
      · exact hboth.2.1 ▸ hboth.1
      · exact hboth.2 ▸ hboth.1
    · exact (wp_ok hevent).2 ((wp_ok hret).1 hall)
  · have hearly : s.enteredMain = false := by simpa using hmain
    exact (wp_ok (handleSeccompEvent_early hearly)).2 (.of_calls rfl)

end Openat

end CodiusSandbox
