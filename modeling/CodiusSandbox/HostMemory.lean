import CodiusSandbox.ChildMemory
import CodiusSandbox.ErrorReports
import CodiusSandbox.Sandbox
/-!
# Host memory in the child

Two structures are automatic variables of the tracer and go to the child with `sizeof`:

| structure      | bytes | assigned                                        | left as they are      |
|----------------|-------|-------------------------------------------------|-----------------------|
| `stat`         | 144   | ten fields, 0 to 35 and 40 to 71                | 36 to 39, 72 to 143   |
| `sockaddr_un`  | 110   | `sun_family`, the name and its NUL, at most 53  | the tail              |

The last byte of each is what the stack held, so two stacks give two memories whenever a structure is
copied at all (`leaks_nothing_iff`).
-/
namespace CodiusSandbox

open Wp

/-! ## What is assigned -/

section
variable {buf : Buffer} {i : Nat}

theorem putAt_of_le {off : Nat} {bytes : Str} (h : off + bytes.length ≤ i) : buf.putAt off bytes i = buf i := by
  unfold Buffer.putAt
  rw [if_pos (by omega), List.getD_eq_getElem?_getD, List.getElem?_eq_none (by omega), Option.getD_none]

/-- A field that ends before `i`. -/
theorem field_of_le {off size n : Nat} (h : off + size ≤ i) :
    buf.putAt off (LittleEndian.toBytes size n) i = buf i :=
  putAt_of_le (by rw [LittleEndian.length_toBytes]; exact h)

/-- The time stamps and the reserved words are not assigned. -/
theorem fill_of_le (f : StatFields) (h : 72 ≤ i) : f.fill buf i = buf i := by
  unfold StatFields.fill
  dsimp only
  iterate 10 rw [field_of_le (by omega)]

theorem isInt_asInt (w : Word) : IsInt (asInt w) :=
  ⟨BitVec.le_toInt (w.setWidth 32), BitVec.toInt_lt⟩

/-- The tail of `sun_path` is not assigned. -/
theorem sockaddrUn_of_le {pid fd : Int} (hpid : IsInt pid) (hfd : IsInt fd) (h : 53 ≤ i) :
    sockaddrUn pid fd buf i = buf i := by
  have hlen := length_socketName hpid hfd
  have hname : (((socketName pid fd).take (sizeofSunPath - 1)) ++ [0]).length ≤ 51 := by
    rw [List.length_append, List.length_take, List.length_singleton]
    omega
  unfold sockaddrUn Buffer.snprintf
  rw [putAt_of_le (by omega), field_of_le (by omega)]

end

/-! ## Two stacks -/

section
variable {F W : Type}

def Sandbox.withStack (s : Sandbox F W) (stack : Buffer) : Sandbox F W :=
  { s with tracer := { s.tracer with stack := stack } }

/-- The child's memory after the call does not depend on the stack. -/
def LeaksNothing [Filesystem F W] (s : Sandbox F W) (call : SyscallCall) : Prop :=
  ∀ stack stack' ret ret' t t', seccompCall call (s.withStack stack) = .ok ret t →
    seccompCall call (s.withStack stack') = .ok ret' t' → t.tracer.mem = t'.tracer.mem

/-- The last byte of a write is stored where the write returns. -/
theorem stored_last {m : Memory} {addr : Address} {length : Nat} {buf : Buffer} (hpos : 0 < length)
    (hl : length < 2 ^ 64) (h : TailMapped m addr length) :
    stored m addr length buf (offset addr (length - 1)) = some (buf (length - 1)) := by
  have hword : wordOf addr (length - 1) = offset addr (lastWord length) := rfl
  rw [stored, distance_offset (by omega), hword, if_pos ⟨by omega, h hpos⟩]

/-- A buffer whose last byte is the stack's is a leak. -/
theorem not_leaksNothing [Filesystem F W] {s : Sandbox F W} {call : SyscallCall} {addr : Address} {length : Nat}
    {g : Buffer → Buffer} (hpos : 0 < length) (hl : length < 2 ^ 64) (h : TailMapped s.tracer.mem addr length)
    (hlast : ∀ stack, g stack (length - 1) = stack (length - 1))
    (hrun : ∀ stack, ∃ ret t, seccompCall call (s.withStack stack) = .ok ret t ∧
      t.tracer.mem = stored s.tracer.mem addr length (g stack)) : ¬ LeaksNothing s call := by
  intro hsame
  obtain ⟨ret, t, ht, hmem⟩ := hrun fun _ => 0
  obtain ⟨ret', t', ht', hmem'⟩ := hrun fun _ => 1
  have heq := congrFun (hsame _ _ _ _ _ _ ht ht') (offset addr (length - 1))
  rw [hmem, hmem', stored_last hpos hl h, stored_last hpos hl h, hlast, hlast] at heq
  exact absurd (Option.some.inj heq) (by decide)

end

/-! ## The three `stat` calls -/

section
variable {X : Type} {σ : Tracer (CodiusNodeFilesystem X) (Node X)} {call : SyscallCall} {r : VFSRequest}

/-- What the callback is asked. -/
def Tracer.statRequest (σ : Tracer (CodiusNodeFilesystem X) (Node X)) (call : SyscallCall) : Option VFSRequest :=
  let name := σ.nameAt (call.args 0)
  if call.id = SYS_fstat then
    if isVirtualFD (asInt (call.args 0)) then
      (σ.vfs.openFiles[asInt (call.args 0)]?).map fun f => .fstat f.localFD
    else none
  else if Readable σ.mem (call.args 0) 1024 ∧ isWhitelisted name = false then
    match σ.vfs.getFilesystem name with
    | .ok (some _) => some (if call.id = SYS_stat then .stat name else .lstat name)
    | _ => none
  else none

variable [OnVFS X]

open CodiusNodeFilesystem in
/-- What the callback replies. -/
def Tracer.statReply (σ : Tracer (CodiusNodeFilesystem X) (Node X)) (call : SyscallCall) : Option VFSReply :=
  (σ.statRequest call).map fun r => (doVFS r σ.world).1

/-- The answer of `CodiusNodeFilesystem` to a reply. -/
def VFSReply.statAnswer (reply : VFSReply) (buf : Buffer) : Int × Buffer :=
  if reply.errnum ≠ 0 then (reply.failure, buf) else (0, reply.result.stat.fill buf)

theorem VFSReply.failure_ne_zero {reply : VFSReply} (h : reply.errnum ≠ 0) : reply.failure ≠ 0 := by
  have hint := reply.isInt
  unfold IsInt at hint
  unfold VFSReply.failure toInt
  intro hzero
  have hdvd := Int.dvd_of_bmod_eq_zero hzero
  omega

theorem statAnswer_zero {reply : VFSReply} {buf : Buffer} :
    toWord (reply.statAnswer buf).1 = 0 ↔ reply.errnum = 0 := by
  unfold VFSReply.statAnswer
  split
  · rename_i h
    have hword : toWord reply.failure = toWord 0 ↔ reply.failure = 0 :=
      toWord_eq_iff (isInt_toInt _).long (by decide)
    exact iff_of_false (fun h0 => VFSReply.failure_ne_zero h (hword.1 h0)) h
  · rename_i h
    exact iff_of_true rfl (Decidable.not_not.1 h)

open CodiusNodeFilesystem in
theorem statWith_run (h : Host (Node X)) (buf : Buffer) :
    ((onNode (CodiusNodeFilesystem.statWith doVFS r buf)).run h).1 = (doVFS r h.world).1.statAnswer buf := by
  have hrun : ((onNode (CodiusNodeFilesystem.statWith doVFS r buf)).run h).1 =
      ((if (doVFS r h.world).1.errnum ≠ 0 then pure ((doVFS r h.world).1.failure, buf)
        else pure (0, (doVFS r h.world).1.result.stat.fill buf) : NodeM X (Int × Buffer)) (doVFS r h.world).2).1 :=
    rfl
  rw [hrun, VFSReply.statAnswer]
  split <;> rfl

omit [OnVFS X] in
/-- A request that names a path. -/
theorem pathRequest_some {args : Nat → Word} {id returnVal : Word} (hid : id ≠ SYS_fstat)
    (hr : σ.statRequest ⟨id, args, returnVal⟩ = some r) :
    ∃ path fs, Readable σ.mem (args 0) 1024 ∧ isWhitelisted (σ.nameAt (args 0)) = false ∧
      σ.vfs.getFilesystem (σ.nameAt (args 0)) = .ok (some (path, fs)) ∧
        (if id = SYS_stat then .stat (σ.nameAt (args 0)) else .lstat (σ.nameAt (args 0))) = r := by
  unfold Tracer.statRequest at hr
  dsimp only at hr
  rw [if_neg hid] at hr
  split at hr
  · rename_i hc
    split at hr
    · rename_i p hg
      exact ⟨p.1, p.2, hc.1, hc.2, hg, Option.some.inj hr⟩
    · cases hr
  · cases hr

/-- A request of the callback is an exchange, whatever the stack holds. -/
theorem exchange_of_request (h : IsStat call) (hr : σ.statRequest call = some r) :
    ∃ x, σ.exchange call = some x ∧
      (x.result, x.buffer) = (CodiusNodeFilesystem.doVFS r σ.world).1.statAnswer σ.stack := by
  obtain ⟨id, args, returnVal⟩ := call
  rcases h with h | h | h <;> dsimp only at h hr <;> subst h
  · unfold Tracer.statRequest at hr
    rw [if_pos rfl] at hr
    split at hr
    · rename_i hv
      obtain ⟨f, hf, rfl⟩ := Option.map_eq_some_iff.1 hr
      refine ⟨σ.perform f.fs σ.errno (Filesystem.fsFstat f.fs f.localFD σ.stack), ?_, statWith_run _ _⟩
      simp [Tracer.exchange, Tracer.askFile, SYS_fstat, SYS_read, hv, hf]
    · cases hr
  · obtain ⟨path, fs, hread, hw, hg, hstat⟩ := pathRequest_some (by decide) hr
    rw [if_pos rfl] at hstat
    subst hstat
    exact ⟨_, exchange_stat hread hw hg rfl, statWith_run _ _⟩
  · obtain ⟨path, fs, hread, hw, hg, hlstat⟩ := pathRequest_some (by decide) hr
    rw [if_neg (by decide)] at hlstat
    subst hlstat
    exact ⟨_, exchange_lstat hread hw hg rfl, statWith_run _ _⟩

omit [OnVFS X] in
/-- A `stat` that asks no filesystem. -/
theorem statWith_mem {F W : Type} {σ t : Tracer F W} {call ret : SyscallCall} {request : Str → Request}
    {op : F → Str → Buffer → StateM (Host W) (Int × Buffer)}
    (hnone : Readable σ.mem (call.args 0) 1024 → isWhitelisted (σ.nameAt (call.args 0)) = false →
      ∀ p, σ.vfs.getFilesystem (σ.nameAt (call.args 0)) ≠ .ok (some p))
    (h : statWith request op call σ = .ok ret t) : t.mem = σ.mem := by
  unfold statWith at h
  by_cases hread : Readable σ.mem (call.args 0) 1024
  · rw [bind_ok (getFilename_readable hread)] at h
    cases hw : isWhitelisted (σ.nameAt (call.args 0)) with
    | true =>
      rw [hw, if_pos rfl] at h
      cases h
      rfl
    | false =>
      rw [hw, if_neg (by decide)] at h
      cases hg : σ.vfs.getFilesystem (σ.nameAt (call.args 0)) with
      | error e =>
        have hrun : getFilesystem (σ.nameAt (call.args 0)) { σ with errno := 0 } = .error e { σ with errno := 0 } := by
          simp only [getFilesystem, hg]
        rw [bind_error hrun] at h
        cases h
      | ok r =>
        have hrun : getFilesystem (σ.nameAt (call.args 0)) { σ with errno := 0 } = .ok r { σ with errno := 0 } := by
          simp only [getFilesystem, hg]
        rw [bind_ok hrun] at h
        cases r with
        | none =>
          cases h
          rfl
        | some p => exact absurd hg (hnone hread hw p)
  · rw [bind_error (getFilename_unreadable hread)] at h
    cases h

/-- Without a request nothing is written. -/
theorem mem_of_no_request {t : Tracer (CodiusNodeFilesystem X) (Node X)} {ret : SyscallCall} (h : IsStat call)
    (hr : σ.statRequest call = none) (hrun : handleSyscall call σ = .ok ret t) : t.mem = σ.mem := by
  obtain ⟨id, args, returnVal⟩ := call
  have hpath : id ≠ SYS_fstat → Readable σ.mem (args 0) 1024 → isWhitelisted (σ.nameAt (args 0)) = false →
      ∀ p, σ.vfs.getFilesystem (σ.nameAt (args 0)) ≠ .ok (some p) := by
    intro hid hread hw p hg
    unfold Tracer.statRequest at hr
    dsimp only at hr
    rw [if_neg hid, if_pos ⟨hread, hw⟩, hg] at hr
    cases hr
  rcases h with h | h | h <;> dsimp only at h <;> subst h
  · have hfstat : doFstat ⟨SYS_fstat, args, returnVal⟩ σ = .ok ret t := hrun
    unfold doFstat at hfstat
    dsimp only at hfstat
    cases hv : isVirtualFD (asInt (args 0)) with
    | false =>
      rw [hv, if_neg (by decide)] at hfstat
      cases hfstat
      rfl
    | true =>
      have hfile : σ.vfs.openFiles[asInt (args 0)]? = none := by
        unfold Tracer.statRequest at hr
        rw [if_pos rfl, if_pos hv] at hr
        exact Option.map_eq_none_iff.1 hr
      rw [hv, if_pos rfl, bind_error (getFile_missing hv hfile)] at hfstat
      cases hfstat
  · exact statWith_mem (hpath (by decide)) hrun
  · exact statWith_mem (hpath (by decide)) hrun

/-- What a request writes to the child. -/
theorem writes_of_request (h : IsStat call) (hr : σ.statRequest call = some r) :
    ∃ ret, Writes (handleSyscall call) σ (call.args 1)
      (if (CodiusNodeFilesystem.doVFS r σ.world).1.errnum = 0 then sizeofStat else 0)
      ((CodiusNodeFilesystem.doVFS r σ.world).1.statAnswer σ.stack).2 ret := by
  obtain ⟨x, hx, hans⟩ := exchange_of_request h hr
  have hwrites := exchange_run hx (backed_of_ne (isStat_ne h).1 (isStat_ne h).2.1)
  have hlen : x.length call =
      if (CodiusNodeFilesystem.doVFS r σ.world).1.errnum = 0 then sizeofStat else 0 := by
    obtain ⟨hread, hdents, hlink⟩ := isStat_ne h
    have hresult : x.result = ((CodiusNodeFilesystem.doVFS r σ.world).1.statAnswer σ.stack).1 := congrArg Prod.fst hans
    unfold IsStat at h
    unfold Exchange.length
    rw [if_neg hread, if_neg hdents, if_neg hlink, if_pos h, hresult]
    exact if_congr statAnswer_zero rfl rfl
  rw [hlen] at hwrites
  rw [← hans]
  exact ⟨_, hwrites⟩

theorem plain_of_isStat (h : IsStat call) : Plain call := by
  rcases h with h | h | h <;> unfold Plain <;> rw [h] <;> decide

omit [OnVFS X] in
/-- The request does not depend on the stack. -/
theorem statRequest_withStack (s : Sandbox (CodiusNodeFilesystem X) (Node X)) (stack : Buffer)
    (call : SyscallCall) : (s.withStack stack).tracer.statRequest call = s.tracer.statRequest call := by
  unfold Tracer.statRequest
  by_cases hid : call.id = SYS_fstat
  · rw [if_pos hid, if_pos hid]
    rfl
  · have hname : (s.withStack stack).tracer.nameAt (call.args 0) = s.tracer.nameAt (call.args 0) := rfl
    have hvfs : (s.withStack stack).tracer.vfs = s.tracer.vfs := rfl
    rw [if_neg hid, if_neg hid, hname, hvfs]
    exact if_congr Iff.rfl rfl rfl

/-- A successful reply is copied. -/
def CopiesStat (σ : Tracer (CodiusNodeFilesystem X) (Node X)) (call : SyscallCall) : Prop :=
  ∃ reply, σ.statReply call = some reply ∧ reply.errnum = 0 ∧ TailMapped σ.mem (call.args 1) sizeofStat

theorem stat_leaks_nothing_iff {s : Sandbox (CodiusNodeFilesystem X) (Node X)} (h : IsStat call) :
    LeaksNothing s call ↔ ¬ CopiesStat s.tracer call := by
  constructor
  · rintro hleaks ⟨reply, hreply, herr, htail⟩
    obtain ⟨r, hr, rfl⟩ := Option.map_eq_some_iff.1 hreply
    have hpos : 0 < sizeofStat := by decide
    have hl : sizeofStat < 2 ^ 64 := by decide
    have hlast : 72 ≤ sizeofStat - 1 := by decide
    refine not_leaksNothing (g := (CodiusNodeFilesystem.doVFS r s.tracer.world).1.result.stat.fill) hpos hl htail
      (fun stack => fill_of_le _ hlast) (fun stack => ?_) hleaks
    rw [← statRequest_withStack s stack] at hr
    obtain ⟨ret, hwrites⟩ := writes_of_request h hr
    have herr' : (CodiusNodeFilesystem.doVFS r (s.withStack stack).tracer.world).1.errnum = 0 := herr
    rw [if_pos herr', VFSReply.statAnswer, if_neg fun hne => hne herr'] at hwrites
    obtain ⟨t, hrun, hmem⟩ := hwrites.run htail
    exact ⟨ret, _, (seccompCall_plain (plain_of_isStat h)).trans (onTracer_ok hrun), hmem⟩
  · intro hcopies stack stack' ret ret' t t' ht ht'
    have hkeep : ∀ stack ret t, seccompCall call (s.withStack stack) = .ok ret t →
        t.tracer.mem = s.tracer.mem := by
      intro stack ret t ht
      have hu := of_seccompCall_plain (plain_of_isStat h) ht
      cases hr : (s.withStack stack).tracer.statRequest call with
      | none =>
        have hmem := mem_of_no_request h hr hu
        exact hmem
      | some r =>
        obtain ⟨ret', hwrites⟩ := writes_of_request h hr
        rw [statRequest_withStack] at hr
        split at hwrites
        · rename_i herr
          have htail : ¬ TailMapped s.tracer.mem (call.args 1) sizeofStat := fun htail =>
            hcopies ⟨_, congrArg (Option.map _) hr, herr, htail⟩
          obtain ⟨e, u, herror⟩ := hwrites.stop htail
          rw [herror] at hu
          cases hu
        · obtain ⟨u, hok, hmem⟩ := hwrites.run (tailMapped_zero _ _)
          rw [hok] at hu
          cases hu
          rw [hmem, stored_zero]
          rfl
    rw [hkeep _ _ _ ht, hkeep _ _ _ ht']

end

/-! ## `bind` -/

section
variable {F W : Type} [Filesystem F W] {s : Sandbox F W} {call : SyscallCall}

/-- The VFS has no handler for `bind`. -/
theorem handleSyscall_bind (h : call.id = SYS_bind) (σ : Tracer F W) : handleSyscall call σ = .ok call σ := by
  obtain ⟨id, args, returnVal⟩ := call
  dsimp only at h
  subst h
  rfl

/-- A `bind` is the write of its `sockaddr_un`. -/
theorem seccompCall_bind (h : call.id = SYS_bind) {addr : Buffer}
    (ha : addr = sockaddrUn s.pid (asInt (call.args 0)) s.tracer.stack) :
    seccompCall call s = (writeScratch sizeofSockaddrUn addr >>= fun scratch =>
      emitEvent (str "newSocket") [sunPath addr] >>= fun _ =>
        onTracer (handleSyscall ((call.setArg 1 scratch).setArg 2 (BitVec.ofNat 64 sizeofSockaddrUn))))
          { s with nextScratchSegment := s.scratchAddr } := by
  subst ha
  rw [seccompCall, resetScratch, bind_modify, NodeSandbox.handleSyscall, if_pos h]
  simp only [bind_assoc, pure_bind, bind_get]

theorem bind_run (h : call.id = SYS_bind) (htail : TailMapped s.tracer.mem s.scratchAddr sizeofSockaddrUn) :
    ∃ ret t, seccompCall call s = .ok ret t ∧ t.tracer.mem =
      stored s.tracer.mem s.scratchAddr sizeofSockaddrUn
        (sockaddrUn s.pid (asInt (call.args 0)) s.tracer.stack) := by
  generalize ha : sockaddrUn s.pid (asInt (call.args 0)) s.tracer.stack = addr
  have hl : sizeofSockaddrUn < 2 ^ 64 := by decide
  obtain ⟨e, hrun⟩ : ∃ e, writeScratch sizeofSockaddrUn addr { s with nextScratchSegment := s.scratchAddr } = _ :=
    writeScratch_ok hl htail
  have hid : ((call.setArg 1 s.scratchAddr).setArg 2 (BitVec.ofNat 64 sizeofSockaddrUn)).id = SYS_bind := h
  rw [seccompCall_bind h ha.symm, bind_ok hrun]
  exact ⟨_, _, onTracer_ok (handleSyscall_bind hid _), rfl⟩

theorem bind_stop (h : call.id = SYS_bind)
    (htail : ¬ TailMapped s.tracer.mem s.scratchAddr sizeofSockaddrUn) : ∃ e t, seccompCall call s = .error e t := by
  have hl : sizeofSockaddrUn < 2 ^ 64 := by decide
  obtain ⟨e, t, hrun⟩ : ∃ e t, writeScratch sizeofSockaddrUn (sockaddrUn s.pid (asInt (call.args 0)) s.tracer.stack)
      { s with nextScratchSegment := s.scratchAddr } = .error e t := writeScratch_error hl htail
  rw [seccompCall_bind h rfl, bind_error hrun]
  exact ⟨e, t, rfl⟩

/-- The 57 bytes behind the name are the stack's. -/
theorem bind_leaks_nothing_iff (h : call.id = SYS_bind) :
    LeaksNothing s call ↔ ¬ TailMapped s.tracer.mem s.scratchAddr sizeofSockaddrUn := by
  constructor
  · intro hleaks htail
    have hpos : 0 < sizeofSockaddrUn := by decide
    have hl : sizeofSockaddrUn < 2 ^ 64 := by decide
    have hlast : 53 ≤ sizeofSockaddrUn - 1 := by decide
    exact not_leaksNothing (g := sockaddrUn s.pid (asInt (call.args 0))) hpos hl htail
      (fun stack => sockaddrUn_of_le s.isInt_pid (isInt_asInt _) hlast)
      (fun stack => bind_run (s := s.withStack stack) h htail) hleaks
  · intro htail stack _ ret _ t _ ht
    obtain ⟨e, u, herror⟩ := bind_stop (s := s.withStack stack) h htail
    rw [herror] at ht
    cases ht

end

/-! ## All four -/

section
variable {X : Type} [OnVFS X]

/-- A structure is copied: a `stat` that succeeds, or the address of a socket. -/
def CopiesStruct (s : Sandbox (CodiusNodeFilesystem X) (Node X)) (call : SyscallCall) : Prop :=
  if call.id = SYS_bind then TailMapped s.tracer.mem s.scratchAddr sizeofSockaddrUn else CopiesStat s.tracer call

/-- No structure goes to the child without what the stack held before the call. -/
theorem leaks_nothing_iff {s : Sandbox (CodiusNodeFilesystem X) (Node X)} {call : SyscallCall}
    (h : call.id ∈ [SYS_fstat, SYS_stat, SYS_lstat, SYS_bind]) : LeaksNothing s call ↔ ¬ CopiesStruct s call := by
  unfold CopiesStruct
  by_cases hbind : call.id = SYS_bind
  · rw [if_pos hbind]
    exact bind_leaks_nothing_iff hbind
  · rw [if_neg hbind]
    simp only [List.mem_cons, List.not_mem_nil, or_false] at h
    have hstat : IsStat call := by
      unfold IsStat
      tauto
    exact stat_leaks_nothing_iff hstat

/-- One byte shows the leak. -/
theorem leaks_of_byte {s : Sandbox (CodiusNodeFilesystem X) (Node X)} {call : SyscallCall} (a : Address)
    (h0 : Returns (seccompCall call) (fun _ t => t.tracer.mem a = some 0) (s.withStack fun _ => 0))
    (h1 : Returns (seccompCall call) (fun _ t => t.tracer.mem a = some 1) (s.withStack fun _ => 1)) :
    ¬ LeaksNothing s call := by
  intro hleaks
  obtain ⟨ret, t, hrun, hbyte⟩ := returns_iff.1 h0
  obtain ⟨ret', t', hrun', hbyte'⟩ := returns_iff.1 h1
  rw [hleaks _ _ _ _ _ _ hrun hrun', hbyte'] at hbyte
  exact absurd (Option.some.inj hbyte) (by decide)

end

/-! ## One `stat`, one `bind` -/

/-- A callback that succeeds. -/
def present : Callback := ⟨⟨0, .undefined, isInt_zero⟩, undefined_encodable⟩

theorem isInt_nodePid : IsInt 7 := by decide

/-- A Node sandbox whose child has "/a" at 0 and its scratch buffer at 2048. -/
def nodeSandbox (c : Callback) : Sandbox (CodiusNodeFilesystem Callback) (Node Callback) :=
  ⟨nodeChild (str "/a") c, 7, isInt_nodePid, 2048, 2048, [], []⟩

/-- `stat ("/a")` into the buffer at 1024. -/
def statA : SyscallCall := .of SYS_stat [0, 1024]

/-- `bind` of descriptor 5. -/
def bindFive : SyscallCall := .of SYS_bind [5, 1024, 16]

/-- The last byte of the `stat` and that of the `sockaddr_un` are the stack's. -/
theorem stack_copied : ∃ s : Sandbox (CodiusNodeFilesystem Callback) (Node Callback), Reachable s.tracer ∧
    ¬ LeaksNothing s statA ∧ ¬ LeaksNothing s bindFive := by
  refine ⟨nodeSandbox present, nodeChild_reachable _ _, ?_, ?_⟩
  · exact leaks_of_byte 1167 (by decide +kernel) (by decide +kernel)
  · exact leaks_of_byte 2157 (by decide +kernel) (by decide +kernel)

theorem leaks_nothing_missing :
    LeaksNothing (nodeSandbox missing) statA ↔ ¬ CopiesStruct (nodeSandbox missing) statA :=
  leaks_nothing_iff (by decide)

end CodiusSandbox
