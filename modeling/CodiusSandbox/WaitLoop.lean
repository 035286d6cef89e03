import CodiusSandbox.HandleTrap
/-!
# What `handle_trap` does with what is reported

The loop leaves at a 0 of `waitpid` and at nothing else. After the reports, a -1 has it dispatch the last status
again, for process -1, for ever (`handles_once_iff`). Its assertions are reached by a `SIGTRAP` that a tracee
raises, by the end of the main process, and by an exit stop of it without a message (`never_trips_iff`).
-/
namespace CodiusSandbox

open Wp Loop

variable {H : Type} {E : Handlers H}

/-! ## One report -/

/-- `waitpid` reports `r`, and the loop dispatches it. -/
def serve (E : Handlers H) (r : Report) : TrapM H Unit := do
  modify fun s => { s with
    reports := s.reports.tail
    status := r.status
    message := r.message
    waits := s.waits + 1
    dispatched := s.dispatched ++ [(r.pid, r.status)] }
  dispatch E r.pid

def serveAll (E : Handlers H) : List Report → TrapM H Unit
  | [] => pure ()
  | r :: rs => do
    serve E r
    serveAll E rs

/-- What the handling of a report leaves alone. -/
def Trap.queue (s : Trap H) : Int × List Report × WaitEnd × Nat × List (Int × Status) :=
  (s.main, s.reports, s.waitEnd, s.waits, s.dispatched)

theorem request_queue (r : TraceRequest) : Preserves Trap.queue (request r : TrapM H Unit) := fun _ => rfl

theorem handle_queue (r : TraceRequest) (x : EStateM Crash H Unit) : Preserves Trap.queue (handle r x : TrapM H Unit) := by
  intro s
  unfold wp handle
  cases x s.host with
  | ok _ _ => rfl
  | error _ _ => rfl

theorem releaseChild_queue (signal : Nat) : Preserves Trap.queue (releaseChild signal : TrapM H Unit) :=
  .bind .get fun _ => .bind (request_queue _) fun _ => .bind (request_queue _) fun _ =>
    .bind (request_queue _) fun _ => request_queue _

theorem exitEvent_queue (pid : Int) : Preserves Trap.queue (exitEvent E pid) := by
  refine .bind (fun _ => rfl) fun _ => .bind .get fun s => ?_
  refine .ite (.ite (.bind (request_queue _) fun _ => ?_) ?_) (.ite (.bind (.throw _) fun _ => ?_) ?_)
  · exact .bind (handle_queue _ _) fun _ => .bind (handle_queue _ _) fun _ => releaseChild_queue _
  · exact .bind (handle_queue _ _) fun _ => .bind (handle_queue _ _) fun _ => releaseChild_queue _
  · exact .bind (handle_queue _ _) fun _ => releaseChild_queue _
  · exact .bind (handle_queue _ _) fun _ => releaseChild_queue _

theorem cloneEvent_queue (pid : Int) : Preserves Trap.queue (cloneEvent pid : TrapM H Unit) :=
  .bind .get fun _ => .bind (request_queue _) fun _ => .bind (request_queue _) fun _ => request_queue _

theorem dispatch_queue (pid : Int) : Preserves Trap.queue (dispatch E pid) := by
  refine .bind .get fun s => .ite (.ite ?_ ?_) ?_
  · refine .ite (.bind (handle_queue _ _) fun _ => request_queue _) (.ite (.ite (exitEvent_queue _) (request_queue _)) ?_)
    exact .ite (.bind (handle_queue _ _) fun _ => request_queue _) (.ite (cloneEvent_queue _) (.throw _))
  · exact .bind (handle_queue _ _) fun _ => request_queue _
  · exact .ite (request_queue _) (.ite (.throw _) (.ite (.throw _) (.pure _)))

section
variable {s t u : Trap H} {r : Report} {rest rs : List Report}

/-- A round of the loop on a report. -/
theorem pass_report (h : s.reports = r :: rest) : pass E s = (serve E r >>= fun _ => pure false) s := by
  have hne : r.pid ≠ 0 := by
    have := r.pos
    omega
  have hwait : waitpid s = .ok r.pid
      { s with reports := rest, status := r.status, message := r.message, waits := s.waits + 1 } := by
    simp only [waitpid, h]
  rw [pass, bind_ok hwait, if_neg hne, bind_modify, serve, bind_assoc, bind_modify, h]
  rfl

theorem pass_done (h : s.reports = []) (hend : s.waitEnd = .running) :
    pass E s = .ok true { s with message := none, waits := s.waits + 1 } := by
  have hwait : waitpid s = .ok 0 { s with message := none, waits := s.waits + 1 } := by
    simp only [waitpid, h, hend]
    rfl
  rw [pass, bind_ok hwait, if_pos rfl]
  rfl

/-- A served report is logged, and nothing else is. -/
theorem serve_queue (h : serve E r s = .ok () t) : t.queue =
    (s.main, s.reports.tail, s.waitEnd, s.waits + 1, s.dispatched ++ [(r.pid, r.status)]) := by
  rw [serve, bind_modify] at h
  exact (dispatch_queue r.pid).of_ok h

theorem serveAll_queue : ∀ {rs : List Report} {s : Trap H}, serveAll E rs s = .ok () u → u.queue =
    (s.main, s.reports.drop rs.length, s.waitEnd, s.waits + rs.length,
      s.dispatched ++ rs.map fun r => (r.pid, r.status))
  | [], s, h => by
    cases h
    simp [Trap.queue]
  | r :: rs, s, h => by
    obtain ⟨_, t, hserve, h⟩ := of_bind_ok h
    have hq := serve_queue hserve
    simp only [Trap.queue, Prod.mk.injEq] at hq
    obtain ⟨hmain, hreports, hend, hwaits, hdispatched⟩ := hq
    rw [serveAll_queue h, hmain, hreports, hend, hwaits, hdispatched]
    simp [List.drop_tail, Nat.add_assoc, Nat.add_comm 1]

/-! ## All reports -/

/-- The loop serves the reports one by one. -/
theorem loop_serves : ∀ {rs : List Report} {s : Trap H}, s.reports = rs ++ rest → serveAll E rs s = .ok () u →
    ∀ fuel, loop (pass E) (rs.length + fuel) s = loop (pass E) fuel u
  | [], s, _, h, fuel => by
    cases h
    rw [List.length_nil, Nat.zero_add]
  | r :: rs, s, hs, h, fuel => by
    obtain ⟨_, t, hserve, h⟩ := of_bind_ok h
    have hpass : pass E s = .ok false t := by
      have hreports : s.reports = r :: (rs ++ rest) := hs
      rw [pass_report hreports, bind_ok hserve]
      rfl
    have hreports : t.reports = rs ++ rest := by
      have hq := serve_queue hserve
      simp only [Trap.queue, Prod.mk.injEq] at hq
      rw [hq.2.1, hs]
      rfl
    rw [List.length_cons, Nat.add_right_comm, loop_next hpass, loop_serves hreports h]

/-- Where no process is left the loop goes on for ever. -/
theorem loop_never (h : s.reports = []) (hend : s.waitEnd = .noChildren) (fuel : Nat) :
    loop (pass E) fuel s ≠ .ok true t := by
  have hkeeps : wp (loop (pass E) fuel)
      (fun done t => done = false ∧ t.reports = [] ∧ t.waitEnd = .noChildren) (fun _ _ => True) s := by
    refine loop_keeps (fun s hs => ?_) ⟨h, hend⟩
    have hwait : waitpid s = .ok (-1) { s with message := none, waits := s.waits + 1 } := by
      simp only [waitpid, hs.1, hs.2]
      rfl
    rw [pass, wp_bind, wp_ok hwait, if_neg (by decide), wp_bind, wp_modify, wp_bind]
    refine wp_mono (fun _ t ht => ?_) (fun _ _ _ => trivial) (dispatch_queue (E := E) (-1) _)
    simp only [Trap.queue, Prod.mk.injEq] at ht
    exact ⟨rfl, ht.2.1.trans hs.1, ht.2.2.1.trans hs.2⟩
  intro htrue
  exact absurd ((wp_ok htrue).1 hkeeps).1 (by decide)

/-- A loop that is left has served all reports and met a 0. -/
theorem of_loop_done : ∀ {fuel : Nat} {s : Trap H}, loop (pass E) fuel s = .ok true t →
    s.waitEnd = .running ∧ Returns (serveAll E s.reports) (fun _ _ => True) s
  | 0, s, h => by cases h
  | fuel + 1, s, h => by
    cases hr : s.reports with
    | nil =>
      cases hend : s.waitEnd with
      | running => exact ⟨rfl, trivial⟩
      | noChildren => exact absurd h (loop_never hr hend _)
    | cons r rest =>
      cases hserve : serve E r s with
      | error e t' =>
        have hpass : pass E s = .error e t' := by rw [pass_report hr, bind_error hserve]
        rw [loop_error hpass] at h
        cases h
      | ok v t' =>
        have hpass : pass E s = .ok false t' := by
          rw [pass_report hr, bind_ok hserve]
          rfl
        rw [loop_next hpass] at h
        have hq := serve_queue hserve
        simp only [Trap.queue, Prod.mk.injEq] at hq
        obtain ⟨hend, hrest⟩ := of_loop_done h
        rw [hq.2.2.1] at hend
        rw [hq.2.1, hr] at hrest
        refine ⟨hend, ?_⟩
        rw [serveAll, returns_bind, returns_ok hserve]
        exact hrest

/-- One invocation dispatches each report once, for its process, and returns at the first 0 or -1. -/
def HandlesOnce (E : Handlers H) (s : Trap H) : Prop :=
  ∃ fuel t, handleTrap E fuel s = .ok true t ∧
    t.dispatched = s.dispatched ++ s.reports.map (fun r => (r.pid, r.status)) ∧ t.waits = s.waits + s.reports.length + 1

/-- It does so exactly if the reports end in 0 and none of them makes the body of the loop fail. -/
theorem handles_once_iff : HandlesOnce E s ↔
    s.waitEnd = .running ∧ Returns (serveAll E s.reports) (fun _ _ => True) { s with status := 0 } := by
  constructor
  · rintro ⟨fuel, t, hrun, _, _⟩
    rw [handleTrap, bind_modify] at hrun
    exact of_loop_done hrun
  · rintro ⟨hend, hserves⟩
    obtain ⟨_, u, hserve, _⟩ := returns_iff.1 hserves
    have hq := serveAll_queue hserve
    simp only [Trap.queue, Prod.mk.injEq, List.drop_length] at hq
    obtain ⟨_, hreports, hend', hwaits, hdispatched⟩ := hq
    have hdone := loop_done (pass_done (E := E) hreports (hend'.trans hend)) 0
    have hreports' : ({ s with status := 0 } : Trap H).reports = s.reports ++ [] := (List.append_nil _).symm
    have hall : loop (pass E) (s.reports.length + 1) { s with status := 0 } = loop (pass E) 1 u :=
      loop_serves hreports' hserve 1
    refine ⟨s.reports.length + 1, { u with message := none, waits := u.waits + 1 }, ?_, hdispatched,
      congrArg (· + 1) hwaits⟩
    rw [handleTrap, bind_modify, hall]
    exact hdone

end

/-! ## The assertions -/

/-- A tracee causes this without reaching an assertion of `handle_trap`. -/
def Cause.Harmless (main pid : Int) : Cause → Prop
  | .exiting none => pid ≠ main
  | .stopped signal => signal.number.toNat ≠ SIGTRAP
  | .ended _ => pid ≠ main
  | _ => True

/-- The tracee goes on, or it was the main process and has been reported and released. -/
def Continued (main pid : Int) (requests : List TraceRequest) : Prop :=
  (∃ signal, .cont pid signal ∈ requests) ∨
    pid = main ∧ (∃ status, .exit status ∈ requests) ∧ .detach main 0 ∈ requests

/-- From `s` to `t` requests are added, which have a tracee that stopped go on. -/
def Serviced (pid : Int) (status : Status) (s t : Trap H) : Prop :=
  ∃ requests, t.requests = s.requests ++ requests ∧ (WIFSTOPPED status = true → Continued s.main pid requests)

/-- A word in `status` that does no harm if it is dispatched again, for process -1. -/
def Stale (main : Int) (status : Status) : Prop := ∃ cause : Cause, cause.Harmless main (-1) ∧ status = cause.status

section
variable {s t u : Trap H} {Q : Unit → Trap H → Prop} {R : TrapCrash → Trap H → Prop} {pid : Int} {cause : Cause}

theorem wp_request {r : TraceRequest} : wp (request r) Q R s ↔ Q () { s with requests := s.requests ++ [r] } := Iff.rfl

/-- A handler may crash, but not in an assertion of `handle_trap`. -/
theorem wp_handle {r : TraceRequest} {x : EStateM Crash H Unit} (hR : ∀ e t, R (.handler e) t)
    (hQ : ∀ h, Q () { s with host := h, requests := s.requests ++ [r] }) : wp (handle r x) Q R s := by
  unfold wp handle
  cases x s.host with
  | ok _ h => exact hQ h
  | error e h => exact hR e _

/-- `handleExit` and `releaseChild`. -/
theorem wp_exit_release {status : Nat} {x : EStateM Crash H Unit} {requests : List TraceRequest}
    (h : s.requests = u.requests ++ requests) (hmain : s.main = u.main) :
    wp (handle (.exit status) x >>= fun _ => releaseChild 0)
      (fun _ t => (∃ requests, t.requests = u.requests ++ requests ∧ Continued u.main u.main requests) ∧
        t.status = s.status) (fun e _ => e ≠ .assertion) s := by
  rw [wp_bind]
  refine wp_handle (fun e _ he => by cases he) fun h' => ⟨?_, rfl⟩
  refine ⟨requests ++ [.exit status, .setOptions s.main 0, .signalStop, .clearIpc, .detach s.main 0], ?_, Or.inr ⟨rfl, ?_, ?_⟩⟩
  · simp only [h, List.append_assoc]
    rfl
  · exact ⟨status, by simp⟩
  · simp [hmain]

/-- The main process that is about to exit with a status is reported and released. -/
theorem wp_exitEvent {exit : Exit} (hm : s.message = some (exit.status.setWidth 64)) :
    wp (exitEvent E s.main)
      (fun _ t => (∃ requests, t.requests = s.requests ++ requests ∧ Continued s.main s.main requests) ∧
        t.status = exit.status) (fun e _ => e ≠ .assertion) s := by
  have hstatus : (s.message.map fun m : Word => m.setWidth 32).getD s.status = exit.status := by
    rw [hm, Option.map_some, Option.getD_some]
    exact BitVec.setWidth_setWidth_of_le _ (by decide)
  unfold exitEvent
  rw [wp_bind, wp_modify, hstatus, wp_bind, wp_get]
  dsimp only
  by_cases hsig : WIFSIGNALED exit.status = true
  · rw [if_pos hsig]
    by_cases hsys : WTERMSIG exit.status = SIGSYS
    · rw [if_pos hsys, wp_bind, wp_request, wp_bind]
      refine wp_handle (fun e _ he => by cases he) fun h' => ?_
      exact wp_exit_release (by simp only [List.append_assoc]; rfl) rfl
    · rw [if_neg hsys, wp_bind]
      refine wp_handle (fun e _ he => by cases he) fun h' => ?_
      exact wp_exit_release rfl rfl
  · have hexit : WIFEXITED exit.status = true := exit.decoded.resolve_left hsig
    rw [if_neg hsig, if_neg (by rw [hexit]; decide)]
    exact wp_exit_release (List.append_nil _).symm rfl

theorem Cause.Harmless.again {main : Int} (hmain : 0 < main) (h : cause.Harmless main pid) : cause.Harmless main (-1) := by
  have hne : (-1 : Int) ≠ main := by omega
  cases cause with
  | seccomp => trivial
  | exec => trivial
  | clone tid => trivial
  | exiting exit =>
    cases exit with
    | none => exact hne
    | some exit => trivial
  | stopped signal => exact h
  | ended exit => exact hne

/-- What is harmless is serviced, and harmless again. -/
theorem wp_dispatch (hmain : 0 < s.main) (hs : s.status = cause.status) (hm : pid = s.main → s.message = cause.message)
    (h : cause.Harmless s.main pid) :
    wp (dispatch E pid) (fun _ t => Serviced pid cause.status s t ∧ Stale s.main t.status)
      (fun e _ => e ≠ .assertion) s := by
  have hcrash : ∀ (e : Crash) (_ : Trap H), TrapCrash.handler e ≠ .assertion := fun e _ he => by cases he
  have hstale : Stale s.main s.status := ⟨cause, h.again hmain, hs⟩
  unfold dispatch
  rw [wp_bind, wp_get, hs]
  cases cause with
  | seccomp =>
    obtain ⟨hstop, hsig, hevent⟩ := event_decoded PTRACE_EVENT_SECCOMP (by decide)
    rw [Cause.status, if_pos hstop, if_pos hsig, hevent, if_pos rfl, wp_bind]
    exact wp_handle hcrash fun h' => ⟨⟨_, List.append_assoc _ _ _, fun _ => Or.inl ⟨0, by simp⟩⟩, hstale⟩
  | exec =>
    obtain ⟨hstop, hsig, hevent⟩ := event_decoded PTRACE_EVENT_EXEC (by decide)
    rw [Cause.status, if_pos hstop, if_pos hsig, hevent, if_neg (by decide), if_neg (by decide), if_pos rfl, wp_bind]
    exact wp_handle hcrash fun h' => ⟨⟨_, List.append_assoc _ _ _, fun _ => Or.inl ⟨0, by simp⟩⟩, hstale⟩
  | clone tid =>
    obtain ⟨hstop, hsig, hevent⟩ := event_decoded PTRACE_EVENT_CLONE (by decide)
    rw [Cause.status, if_pos hstop, if_pos hsig, hevent, if_neg (by decide), if_neg (by decide), if_neg (by decide),
      if_pos rfl]
    refine ⟨⟨_, (List.append_assoc _ _ _).trans (List.append_assoc _ _ _), fun _ => Or.inl ⟨0, by simp⟩⟩, hstale⟩
  | exiting exit =>
    obtain ⟨hstop, hsig, hevent⟩ := event_decoded PTRACE_EVENT_EXIT (by decide)
    rw [Cause.status, if_pos hstop, if_pos hsig, hevent, if_neg (by decide), if_pos rfl]
    by_cases hpid : pid = s.main
    · rw [if_pos hpid]
      cases exit with
      | none => exact absurd hpid h
      | some exit =>
        have hne : (-1 : Int) ≠ s.main := by omega
        have hended : Stale s.main exit.status := ⟨.ended exit, hne, rfl⟩
        rw [hpid]
        refine wp_mono (fun _ t ht => ?_) (fun _ _ => id) (wp_exitEvent (hm hpid))
        obtain ⟨⟨requests, hadd, hcont⟩, hstatus⟩ := ht
        exact ⟨⟨requests, hadd, fun _ => hcont⟩, by rw [hstatus]; exact hended⟩
    · rw [if_neg hpid]
      exact ⟨⟨_, rfl, fun _ => Or.inl ⟨0, by simp⟩⟩, hstale⟩
  | stopped signal =>
    obtain ⟨hstop, hsig, _⟩ := stopped_decoded signal.number signal.valid.1 signal.valid.2
    rw [Cause.status, if_pos hstop, hsig, if_neg h, wp_bind]
    exact wp_handle hcrash fun h' =>
      ⟨⟨_, List.append_assoc _ _ _, fun _ => Or.inl ⟨signal.number.toNat, by simp⟩⟩, hstale⟩
  | ended exit =>
    obtain ⟨hstop, hcont⟩ := exit.not_stopped
    rw [Cause.status, if_neg (by rw [hstop]; decide), if_neg (by rw [hcont]; decide), if_neg fun hp => h hp.2,
      if_neg fun hp => h hp.2]
    refine ⟨⟨[], (List.append_nil _).symm, fun hstopped => ?_⟩, hstale⟩
    rw [hstop] at hstopped
    cases hstopped

/-- What is not reaches an assertion, before any handler is called. -/
theorem dispatch_assertion (hs : s.status = cause.status) (hm : s.message = cause.message)
    (h : ¬ cause.Harmless s.main pid) : ∃ t, dispatch E pid s = .error .assertion t := by
  unfold dispatch
  rw [bind_get, hs]
  cases cause with
  | seccomp => exact absurd trivial h
  | exec => exact absurd trivial h
  | clone tid => exact absurd trivial h
  | exiting exit =>
    cases exit with
    | some exit => exact absurd trivial h
    | none =>
      obtain ⟨hstop, hsig, hevent⟩ := event_decoded PTRACE_EVENT_EXIT (by decide)
      have hpid : pid = s.main := Decidable.not_not.1 h
      have hstatus : (s.message.map fun m : Word => m.setWidth 32).getD s.status = eventStatus PTRACE_EVENT_EXIT := by
        rw [hm, hs]
        rfl
      rw [Cause.status, if_pos hstop, if_pos hsig, hevent, if_neg (by decide), if_pos rfl, if_pos hpid]
      unfold exitEvent
      rw [bind_modify, hstatus, bind_get]
      dsimp only
      rw [if_neg (by decide), if_pos (by decide)]
      exact ⟨_, rfl⟩
  | stopped signal =>
    obtain ⟨hstop, hsig, hevent⟩ := stopped_decoded signal.number signal.valid.1 signal.valid.2
    have htrap : signal.number.toNat = SIGTRAP := Decidable.not_not.1 h
    rw [Cause.status, if_pos hstop, hsig, if_pos htrap, hevent, if_neg (by decide), if_neg (by decide), if_neg (by decide),
      if_neg (by decide)]
    exact ⟨_, rfl⟩
  | ended exit =>
    obtain ⟨hstop, hcont⟩ := exit.not_stopped
    have hpid : pid = s.main := Decidable.not_not.1 h
    rw [Cause.status, if_neg (by rw [hstop]; decide), if_neg (by rw [hcont]; decide)]
    by_cases hsig : WIFSIGNALED exit.status = true
    · rw [if_pos ⟨hsig, hpid⟩]
      exact ⟨_, rfl⟩
    · rw [if_neg fun hp => hsig hp.1, if_pos ⟨exit.decoded.resolve_left hsig, hpid⟩]
      exact ⟨_, rfl⟩

end
/-! ## Runs -/

/-- A tracee and what it causes. -/
structure TraceEvent where
  pid : Int
  pos : 0 < pid
  cause : Cause

def TraceEvent.report (e : TraceEvent) : Report := ⟨e.pid, e.pos, e.cause.status, e.cause.message⟩

/-- No assertion of `handle_trap` is reached in the run, and every event that is served lets its tracee go on. -/
structure NeverTrips (E : Handlers H) (s : Trap H) (es : List TraceEvent) : Prop where
  asserts : ∀ fuel t, handleTrap E fuel s ≠ .error .assertion t
  services : ∀ pre e post, es = pre ++ e :: post → ∀ u t,
    serveAll E (pre.map TraceEvent.report) { s with status := 0 } = .ok () u → serve E e.report u = .ok () t →
      Serviced e.pid e.cause.status u t

section
variable {s t u : Trap H} {e : TraceEvent} {es : List TraceEvent}

theorem wp_serve (hmain : 0 < s.main) (h : e.cause.Harmless s.main e.pid) :
    wp (serve E e.report) (fun _ t => Serviced e.pid e.cause.status s t ∧ Stale s.main t.status)
      (fun e _ => e ≠ .assertion) s := by
  rw [serve, wp_bind, wp_modify]
  exact wp_dispatch hmain rfl (fun _ => rfl) h

/-- Nothing is left to report, and the last status does no harm. -/
structure Idle (s : Trap H) : Prop where
  reports : s.reports = []
  waitEnd : s.waitEnd = .noChildren
  main : 0 < s.main
  stale : Stale s.main s.status

/-- A round for process -1. -/
theorem wp_pass_idle (h : Idle s) :
    wp (pass E) (fun done t => done = false ∧ Idle t) (fun e _ => e ≠ .assertion) s := by
  obtain ⟨hr, hend, hmain, cause, hharmless, hstatus⟩ := h
  have hwait : waitpid s = .ok (-1) { s with message := none, waits := s.waits + 1 } := by
    simp only [waitpid, hr, hend]
    rfl
  have hne : (-1 : Int) ≠ s.main := by omega
  rw [pass, wp_bind, wp_ok hwait, if_neg (by decide), wp_bind, wp_modify, wp_bind]
  generalize hv : ({ s with
    message := none, waits := s.waits + 1, dispatched := s.dispatched ++ [(-1, s.status)] } : Trap H) = v
  have hvmain : v.main = s.main := by rw [← hv]
  have hvreports : v.reports = [] := by rw [← hv]; exact hr
  have hvend : v.waitEnd = .noChildren := by rw [← hv]; exact hend
  have hvstatus : v.status = cause.status := by rw [← hv]; exact hstatus
  have hdispatch : wp (dispatch E (-1)) (fun _ t => Serviced (-1) cause.status v t ∧ Stale v.main t.status)
      (fun e _ => e ≠ .assertion) v :=
    wp_dispatch (by rw [hvmain]; exact hmain) hvstatus (fun h => absurd (h.trans hvmain) hne)
      (by rw [hvmain]; exact hharmless)
  refine wp_mono (fun _ t ht => ⟨rfl, ?_⟩) (fun _ _ he => he.1) (wp_and hdispatch (dispatch_queue (E := E) (-1) v))
  obtain ⟨⟨_, hstale⟩, hq⟩ := ht
  simp only [Trap.queue, Prod.mk.injEq] at hq
  refine ⟨hq.2.1.trans hvreports, hq.2.2.1.trans hvend, ?_, ?_⟩
  · rw [hq.1, hvmain]
    exact hmain
  · rw [hq.1]
    exact hstale

/-- Events that are harmless where they are reached do not make the loop assert. -/
theorem wp_loop : ∀ {es : List TraceEvent} {s : Trap H} (fuel : Nat), s.reports = es.map TraceEvent.report →
    0 < s.main → Stale s.main s.status →
    (∀ pre e post, es = pre ++ e :: post → Returns (serveAll E (pre.map TraceEvent.report)) (fun _ _ => True) s →
      e.cause.Harmless s.main e.pid) →
    wp (loop (pass E) fuel) (fun _ _ => True) (fun e _ => e ≠ .assertion) s
  | _, s, 0, _, _, _, _ => trivial
  | [], s, fuel + 1, hr, hmain, hstale, _ => by
    cases hend : s.waitEnd with
    | running => exact (wp_ok (loop_done (pass_done hr hend) fuel)).2 trivial
    | noChildren =>
      exact wp_mono (fun _ _ _ => trivial) (fun _ _ => id)
        (loop_keeps (fun _ => wp_pass_idle) (⟨hr, hend, hmain, hstale⟩ : Idle s))
  | e :: es, s, fuel + 1, hr, hmain, hstale, h => by
    have hserve := wp_serve (E := E) hmain (h [] e es rfl trivial)
    cases hrun : serve E e.report s with
    | error x t =>
      have hpass : pass E s = .error x t := by rw [pass_report hr, bind_error hrun]
      exact (wp_error (loop_error hpass fuel)).2 ((wp_error hrun).1 hserve)
    | ok v t =>
      have hpass : pass E s = .ok false t := by
        rw [pass_report hr, bind_ok hrun]
        rfl
      obtain ⟨_, hstale'⟩ := (wp_ok hrun).1 hserve
      have hq := serve_queue hrun
      simp only [Trap.queue, Prod.mk.injEq] at hq
      have hreports : t.reports = es.map TraceEvent.report := by rw [hq.2.1, hr]; rfl
      have hrest := wp_loop fuel hreports (by rw [hq.1]; exact hmain) (by rw [hq.1]; exact hstale')
        fun pre e' post hes hpre => by
          rw [hq.1]
          refine h (e :: pre) e' post (by rw [hes]; rfl) ?_
          rw [List.map_cons, serveAll, returns_bind, returns_ok hrun]
          exact hpre
      unfold wp at hrest ⊢
      rw [loop_next hpass]
      exact hrest

/-- A harmful event that is reached makes it assert. -/
theorem loop_assertion {pre post : List TraceEvent} (hr : s.reports = (pre ++ e :: post).map TraceEvent.report)
    (hpre : serveAll E (pre.map TraceEvent.report) s = .ok () u) (h : ¬ e.cause.Harmless s.main e.pid) :
    ∃ fuel t, loop (pass E) fuel s = .error .assertion t := by
  have hq := serveAll_queue hpre
  simp only [Trap.queue, Prod.mk.injEq] at hq
  have hreports : u.reports = e.report :: post.map TraceEvent.report := by
    rw [hq.2.1, hr, List.map_append, List.drop_left]
    rfl
  obtain ⟨t, hdispatch⟩ : ∃ t, serve E e.report u = .error .assertion t := by
    rw [serve, bind_modify]
    exact dispatch_assertion rfl rfl (by rw [hq.1]; exact h)
  have hpass : pass E u = .error .assertion t := by rw [pass_report hreports, bind_error hdispatch]
  rw [List.map_append] at hr
  exact ⟨_, t, (loop_serves hr hpre 1).trans (loop_error hpass 0)⟩

/-- The assertions are out of reach exactly if no event that is reached is a `SIGTRAP` of the tracee's own, the end of
the main process, or an exit stop of it without a message. -/
theorem never_trips_iff (hmain : 0 < s.main) (hs : s.reports = es.map TraceEvent.report) :
    NeverTrips E s es ↔ ∀ pre e post, es = pre ++ e :: post →
      Returns (serveAll E (pre.map TraceEvent.report)) (fun _ _ => True) { s with status := 0 } →
        e.cause.Harmless s.main e.pid := by
  have hnone : Stale s.main 0 := by
    have hne : (-1 : Int) ≠ s.main := by omega
    exact ⟨.ended (.exited 0), hne, by decide⟩
  constructor
  · intro h pre e post hes hpre
    obtain ⟨_, u, hrun, _⟩ := returns_iff.1 hpre
    by_cases hharmless : e.cause.Harmless s.main e.pid
    · exact hharmless
    · obtain ⟨fuel, t, hloop⟩ := loop_assertion (s := { s with status := 0 }) (hs.trans (by rw [hes])) hrun hharmless
      refine absurd ?_ (h.asserts fuel t)
      rw [handleTrap, bind_modify]
      exact hloop
  · intro h
    refine ⟨fun fuel t hrun => ?_, fun pre e post hes u t hpre hserve => ?_⟩
    · rw [handleTrap, bind_modify] at hrun
      exact (wp_error hrun).1 (wp_loop (s := { s with status := 0 }) fuel hs hmain hnone h) rfl
    · have hq := serveAll_queue hpre
      simp only [Trap.queue, Prod.mk.injEq] at hq
      have hmain' : 0 < u.main := by rw [hq.1]; exact hmain
      have hharmless : e.cause.Harmless u.main e.pid := by
        rw [hq.1]
        exact h pre e post hes ((returns_ok hpre).2 trivial)
      exact ((wp_ok hserve).1 (wp_serve hmain' hharmless)).1

end

/-! ## Three runs -/

theorem pos_childPid : (0 : Int) < 7 := by decide

/-- Handlers that do nothing. -/
def idleHandlers : Handlers Unit := ⟨fun _ => pure (), fun _ => pure (), fun _ => pure (), fun _ => pure (), fun _ _ => 0⟩

/-- Process 7 and what it causes. -/
def trapOf (causes : List Cause) (waitEnd : WaitEnd) : Trap Unit :=
  ⟨(), 7, causes.map fun c => ⟨7, pos_childPid, c.status, c.message⟩, waitEnd, 0, none, 0, 0, [], []⟩

theorem trapSignal_valid : (1 : BitVec 8) ≤ 5 ∧ (5 : BitVec 8) ≤ 64 := by decide

/-- The last status before the -1 is dispatched again and again, for process -1. -/
theorem stale_status_dispatched : (∀ fuel t, handleTrap idleHandlers fuel (trapOf [.seccomp] .noChildren) ≠ .ok true t) ∧
    Returns (handleTrap idleHandlers 3) (fun done t => done = false ∧ t.dispatched =
      [(7, Cause.seccomp.status), (-1, Cause.seccomp.status), (-1, Cause.seccomp.status)]) (trapOf [.seccomp] .noChildren) ∧
    ¬ HandlesOnce idleHandlers (trapOf [.seccomp] .noChildren) := by
  have hnever : ∀ fuel t, handleTrap idleHandlers fuel (trapOf [.seccomp] .noChildren) ≠ .ok true t := by
    intro fuel t hrun
    rw [handleTrap, bind_modify] at hrun
    exact absurd (of_loop_done hrun).1 (by decide)
  refine ⟨hnever, by decide +kernel, ?_⟩
  rintro ⟨fuel, t, hrun, _⟩
  exact hnever fuel t hrun

theorem never_trips_seccomp : NeverTrips idleHandlers (trapOf [.seccomp] .running) [⟨7, pos_childPid, .seccomp⟩] ↔
    ∀ pre e post, [⟨7, pos_childPid, .seccomp⟩] = pre ++ e :: post →
      Returns (serveAll idleHandlers (pre.map TraceEvent.report)) (fun _ _ => True)
        { trapOf [.seccomp] .running with status := 0 } → e.cause.Harmless 7 e.pid :=
  never_trips_iff (by decide) rfl

/-- A `SIGTRAP` that the child sends itself, and a main process that is reported once more after its release. -/
theorem raised_sigtrap_trips :
    wp (handleTrap idleHandlers 1) (fun _ _ => False) (fun e _ => e = .assertion)
      (trapOf [.stopped ⟨5, trapSignal_valid⟩] .running) ∧
    wp (handleTrap idleHandlers 2) (fun _ _ => False) (fun e t => e = .assertion ∧ t.requests =
        [.exit 0, .setOptions 7 0, .signalStop, .clearIpc, .detach 7 0])
      (trapOf [.exiting (some (.exited 0)), .ended (.exited 0)] .running) ∧
    ¬ NeverTrips idleHandlers (trapOf [.stopped ⟨5, trapSignal_valid⟩] .running)
      [⟨7, pos_childPid, .stopped ⟨5, trapSignal_valid⟩⟩] := by
  have htrap : wp (handleTrap idleHandlers 1) (fun _ _ => False) (fun e _ => e = .assertion)
      (trapOf [.stopped ⟨5, trapSignal_valid⟩] .running) := by decide +kernel
  refine ⟨htrap, by decide +kernel, fun h => ?_⟩
  cases hrun : handleTrap idleHandlers 1 (trapOf [.stopped ⟨5, trapSignal_valid⟩] .running) with
  | ok _ t => exact (wp_ok hrun).1 htrap
  | error e t =>
    rw [(wp_error hrun).1 htrap] at hrun
    exact h.asserts 1 t hrun

end CodiusSandbox
