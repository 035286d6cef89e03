import CodiusSandbox.Survival
import CodiusSandbox.WriteData
/-!
# What a handler makes of a filesystem's answer

The ten calls `read`, `write`, `fstat`, `stat`, `lstat`, `access`, `lseek`, `getdents`, `readlink` and
`close` ask a filesystem for one operation each. `Tracer.exchange` is that operation and its answer, with
`errno` before and after. What the child then gets is `Exchange.returned`, and `Exchange.length` bytes of
the buffer behind its second argument (`exchange_run`).
-/
namespace CodiusSandbox

open Wp

variable {F W : Type}

structure Exchange (F W : Type) where
  fs : F
  /-- `errno` when the filesystem is asked. -/
  before : Errno
  result : Int
  buffer : Buffer
  after : Host W

/-- `fs` does `op`. -/
def Tracer.perform (σ : Tracer F W) (fs : F) (errno : Errno) (op : StateM (Host W) (Int × Buffer)) :
    Exchange F W :=
  let r := op.run ⟨errno, σ.world⟩
  ⟨fs, errno, r.1.1, r.1.2, r.2⟩

/-- An operation without a buffer. -/
def bare (op : StateM (Host W) Int) : StateM (Host W) (Int × Buffer) := fun h =>
  (((op.run h).1, fun _ => 0), (op.run h).2)

/-- The file behind the call's descriptor is asked, if `ready` holds. -/
def Tracer.askFile (σ : Tracer F W) (call : SyscallCall) (errno : Errno) (ready : File F → Bool)
    (op : File F → StateM (Host W) (Int × Buffer)) : Option (Exchange F W) :=
  if isVirtualFD (asInt (call.args 0)) then
    match σ.vfs.openFiles[asInt (call.args 0)]? with
    | some f => if ready f then some (σ.perform f.fs errno (op f)) else none
    | none => none
  else none

/-- The filesystem that has the call's path is asked, if `ready` holds. -/
def Tracer.askPath (σ : Tracer F W) (call : SyscallCall) (ready : Bool)
    (op : Str → F → StateM (Host W) (Int × Buffer)) : Option (Exchange F W) :=
  if Readable σ.mem (call.args 0) 1024 ∧ isWhitelisted (σ.nameAt (call.args 0)) = false ∧ ready then
    match σ.vfs.getFilesystem (σ.nameAt (call.args 0)) with
    | .ok (some (path, fs)) => some (σ.perform fs 0 (op path fs))
    | _ => none
  else none

section
variable [Filesystem F W]

open Filesystem in
/-- What a call asks a filesystem, and its answer. -/
def Tracer.exchange (σ : Tracer F W) (call : SyscallCall) : Option (Exchange F W) :=
  let n := (call.args 2).toNat
  let name := σ.nameAt (call.args 0)
  if call.id = SYS_read then
    σ.askFile call σ.errno (fun _ => Fits σ n) fun f => fsRead f.fs f.localFD (zeroed n σ.slack) n
  else if call.id = SYS_fstat then
    σ.askFile call σ.errno (fun _ => true) fun f => fsFstat f.fs f.localFD σ.stack
  else if call.id = SYS_getdents then
    σ.askFile call σ.errno (fun _ => Fits σ n) fun f => fsGetdents f.fs f.localFD (zeroed n σ.slack) (n % 2 ^ 32)
  else if call.id = SYS_lseek then
    σ.askFile call σ.errno (fun _ => true) fun f => bare (fsLseek f.fs f.localFD (asOff (call.args 1)) (asInt (call.args 2)))
  else if call.id = SYS_write then
    match copyData (call.args 1) n (zeroed n σ.slack) ⟨σ.mem, σ.errno⟩ with
    | .ok r p => σ.askFile call p.errno (fun _ => Fits σ n) fun f => bare (fsWrite f.fs f.localFD r.1 n)
    | .error _ _ => none
  else if call.id = SYS_close then
    σ.askFile call σ.errno (fun f => f.localFD > 0) fun f => bare (fsClose f.fs f.localFD)
  else if call.id = SYS_access then
    σ.askPath call true fun path fs => bare (fsAccess fs path (asInt (call.args 1)))
  else if call.id = SYS_stat then σ.askPath call true fun _ fs => fsStat fs name σ.stack
  else if call.id = SYS_lstat then σ.askPath call true fun _ fs => fsLstat fs name σ.stack
  else if call.id = SYS_readlink then
    σ.askPath call (Fits σ n) fun path fs => fsReadlink fs path (zeroed n σ.slack) n
  else none

/-- The bytes of the buffer that go to the child. -/
def Exchange.length (x : Exchange F W) (call : SyscallCall) : Nat :=
  if call.id = SYS_read then if x.result ≥ 0 then (toWord x.result).toNat else 0
  else if call.id = SYS_getdents then if asInt (toWord x.result) > 0 then (toWord x.result).toNat else 0
  else if call.id = SYS_readlink then min (call.args 2).toNat (toWord x.result).toNat
  else if call.id = SYS_fstat ∨ call.id = SYS_stat ∨ call.id = SYS_lstat then
    if toWord x.result = 0 then sizeofStat else 0
  else 0

/-- Nothing is to be copied from a vector without bytes. -/
def Exchange.Backed (x : Exchange F W) (call : SyscallCall) : Prop :=
  call.id = SYS_read ∨ call.id = SYS_getdents → (call.args 2).toNat = 0 → x.length call = 0

/-- What the child's call returns. -/
def Exchange.returned (x : Exchange F W) (call : SyscallCall) : Int :=
  if call.id = SYS_read then if x.result < 0 then -x.after.errno else x.result
  else x.result

/-- `y` ends in `ret` with `length` bytes of `buf` written to `addr`, or stops at the word it reads there. -/
structure Writes (y : TracerM F W SyscallCall) (σ : Tracer F W) (addr : Address) (length : Nat) (buf : Buffer)
    (ret : SyscallCall) : Prop where
  run : TailMapped σ.mem addr length → ∃ t, y σ = .ok ret t ∧ t.mem = stored σ.mem addr length buf
  stop : ¬ TailMapped σ.mem addr length → ∃ e t, y σ = .error e t

variable {σ τ : Tracer F W} {call ret : SyscallCall} {x : Exchange F W} {addr : Address} {length : Nat}
  {buf : Buffer}

theorem tailMapped_zero (m : Memory) (addr : Address) : TailMapped m addr 0 := fun h => absurd h (by decide)

omit [Filesystem F W] in
/-- Where nothing is written. -/
theorem Writes.none {y : TracerM F W SyscallCall} {t : Tracer F W} (h : y σ = .ok ret t) (hm : t.mem = σ.mem) :
    Writes y σ addr 0 buf ret where
  run := fun _ => ⟨t, h, by rw [stored_zero, hm]⟩
  stop := fun hn => absurd (tailMapped_zero _ _) hn

omit [Filesystem F W] in
theorem Writes.bind {β : Type} {y : TracerM F W β} {f : β → TracerM F W SyscallCall} {b : β} (h : y σ = .ok b τ)
    (hm : τ.mem = σ.mem) (hf : Writes (f b) τ addr length buf ret) : Writes (y >>= f) σ addr length buf ret where
  run := fun ht => by
    obtain ⟨t, hrun, hmem⟩ := hf.run (hm ▸ ht)
    exact ⟨t, by rw [bind_ok h, hrun], hm ▸ hmem⟩
  stop := fun ht => by
    obtain ⟨e, t, hrun⟩ := hf.stop (hm ▸ ht)
    exact ⟨e, t, by rw [bind_ok h, hrun]⟩

omit [Filesystem F W] in
theorem Writes.of_ok {y : TracerM F W SyscallCall} {ret' : SyscallCall} (h : Writes y σ addr length buf ret)
    (hrun : y σ = .ok ret' τ) : ret' = ret ∧ τ.mem = stored σ.mem addr length buf := by
  by_cases ht : TailMapped σ.mem addr length
  · obtain ⟨t, hok, hmem⟩ := h.run ht
    rw [hok] at hrun
    cases hrun
    exact ⟨rfl, hmem⟩
  · obtain ⟨e, t, herror⟩ := h.stop ht
    rw [herror] at hrun
    cases hrun

omit [Filesystem F W] in
/-- The write to the child and the answer behind it. -/
theorem writes_answer (hl : length < 2 ^ 64) :
    Writes (ptrace (writeData addr length buf) >>= fun _ => pure ret) σ addr length buf ret where
  run := fun ht => by
    obtain ⟨r, e, hrun⟩ := writeData_stored addr buf (s := ⟨σ.mem, σ.errno⟩) hl ht
    have hp : ptrace (writeData addr length buf) σ =
        .ok r { σ with mem := stored σ.mem addr length buf, errno := e } := by simp only [ptrace, hrun]
    exact ⟨_, by rw [bind_ok hp]; rfl, rfl⟩
  stop := fun ht => by
    obtain ⟨p, hrun⟩ := writeData_unmapped buf (s := ⟨σ.mem, σ.errno⟩) hl ht
    have hp : ptrace (writeData addr length buf) σ =
        .error .assertion { σ with mem := p.mem, errno := p.errno } := by simp only [ptrace, hrun]
    exact ⟨_, _, bind_error hp⟩

omit [Filesystem F W] in
theorem writes_vectorAnswer {size : Nat} (hl : length < 2 ^ 64) (hs : size = 0 → length = 0) :
    Writes (writeVector addr length buf size >>= fun _ => pure ret) σ addr length buf ret := by
  rw [writeVector_eq hs]
  exact writes_answer hl

omit [Filesystem F W] in
theorem writes_ite {c : Prop} [Decidable c] (hl : length < 2 ^ 64) :
    Writes (if c then ptrace (writeData addr length buf) >>= fun _ => pure ret else pure ret) σ addr
      (if c then length else 0) buf ret := by
  split
  · exact writes_answer hl
  · exact .none rfl rfl

/-! ## The handlers -/

omit [Filesystem F W] in
/-- A handler of descriptors, up to the filesystem. -/
theorem writes_file {errno : Errno} {ready : File F → Bool} {op : File F → StateM (Host W) (Int × Buffer)}
    {k : Option (File F) → TracerM F W SyscallCall} (hx : σ.askFile call errno ready op = some x)
    (hk : ∀ f, σ.vfs.openFiles[asInt (call.args 0)]? = some f → ready f = true →
      x = σ.perform f.fs errno (op f) → Writes (k (some f)) σ addr length buf ret) :
    Writes (if isVirtualFD (asInt (call.args 0)) then getFile (asInt (call.args 0)) >>= k else pure call) σ addr
      length buf ret := by
  unfold Tracer.askFile at hx
  split at hx
  · rename_i hv
    rw [if_pos hv]
    split at hx
    · rename_i f hf
      split at hx
      · rename_i hready
        exact (hk f hf hready (Option.some.inj hx).symm).bind (getFile_open hv hf) rfl
      · cases hx
    · cases hx
  · cases hx

omit [Filesystem F W] in
/-- A handler of paths, up to the filesystem. -/
theorem writes_path {ready : Bool} {op : Str → F → StateM (Host W) (Int × Buffer)}
    {k : Str → Option (Str × F) → TracerM F W SyscallCall} (hx : σ.askPath call ready op = some x)
    (hk : ∀ path fs, σ.vfs.getFilesystem (σ.nameAt (call.args 0)) = .ok (some (path, fs)) → ready = true →
      x = σ.perform fs 0 (op path fs) →
      Writes (k (σ.nameAt (call.args 0)) (some (path, fs))) { σ with errno := 0 } addr length buf ret) :
    Writes (getFilename (call.args 0) >>= fun n =>
      if isWhitelisted n then pure call else getFilesystem n >>= k n) σ addr length buf ret := by
  unfold Tracer.askPath at hx
  split at hx
  · rename_i h
    obtain ⟨hread, hw, hready⟩ := h
    split at hx
    · rename_i path fs hg
      have hrun : getFilesystem (σ.nameAt (call.args 0)) { σ with errno := 0 } =
          .ok (some (path, fs)) { σ with errno := 0 } := by simp only [getFilesystem, hg]
      refine Writes.bind (getFilename_readable hread) rfl ?_
      rw [hw, if_neg (by decide)]
      exact (hk path fs hg hready (Option.some.inj hx).symm).bind hrun rfl
    · cases hx
  · cases hx

section
omit [Filesystem F W]

/-- The state behind an exchange. -/
theorem fsCall_perform {fs : F} {op : StateM (Host W) (Int × Buffer)} (request : Request)
    (hx : x = σ.perform fs σ.errno op) : ∃ t, fsCall fs request Prod.fst op σ = .ok (x.result, x.buffer) t ∧
      t.mem = σ.mem ∧ t.errno = x.after.errno := by
  subst hx
  exact ⟨_, rfl, rfl, rfl⟩

theorem fsCall_bare {fs : F} {op : StateM (Host W) Int} (request : Request)
    (hx : x = σ.perform fs σ.errno (bare op)) : ∃ t, fsCall fs request id op σ = .ok x.result t ∧
      t.mem = σ.mem := by
  subst hx
  exact ⟨_, rfl, rfl⟩

end

open Filesystem in
theorem doRead_writes (hx : σ.askFile call σ.errno (fun _ => Fits σ (call.args 2).toNat)
      (fun f => fsRead f.fs f.localFD (zeroed (call.args 2).toNat σ.slack) (call.args 2).toNat) = some x)
    (hs : (call.args 2).toNat = 0 → (if x.result ≥ 0 then (toWord x.result).toNat else 0) = 0) :
    Writes (doRead call) σ (call.args 1) (if x.result ≥ 0 then (toWord x.result).toNat else 0) x.buffer
      (call.answer (toWord (if x.result < 0 then -x.after.errno else x.result))) := by
  refine writes_file hx fun f hf hfits hperform => ?_
  have hfits : Fits σ (call.args 2).toNat := of_decide_eq_true hfits
  obtain ⟨t, ht, hmem, herrno⟩ := fsCall_perform (.read f.localFD (call.args 2).toNat) hperform
  refine Writes.bind (newVector_fits hfits) rfl (Writes.bind ht hmem ?_)
  dsimp only
  split
  · rename_i hpos
    rw [if_neg (Int.not_lt.2 hpos)]
    rw [if_pos hpos] at hs
    exact writes_vectorAnswer (BitVec.isLt _) hs
  · rename_i hneg
    rw [if_pos (Int.not_le.1 hneg), ← herrno]
    exact .none rfl rfl

open Filesystem in
theorem doFstat_writes
    (hx : σ.askFile call σ.errno (fun _ => true) (fun f => fsFstat f.fs f.localFD σ.stack) = some x) :
    Writes (doFstat call) σ (call.args 1) (if toWord x.result = 0 then sizeofStat else 0) x.buffer
      (call.answer (toWord x.result)) := by
  refine writes_file hx fun f hf _ hperform => ?_
  obtain ⟨t, ht, hmem, _⟩ := fsCall_perform (.fstat f.localFD) hperform
  refine Writes.bind (b := σ) rfl rfl (Writes.bind ht hmem ?_)
  exact writes_ite (by decide)

open Filesystem in
theorem doGetdents_writes (hx : σ.askFile call σ.errno (fun _ => Fits σ (call.args 2).toNat)
      (fun f => fsGetdents f.fs f.localFD (zeroed (call.args 2).toNat σ.slack)
        ((call.args 2).toNat % 2 ^ 32)) = some x)
    (hs : (call.args 2).toNat = 0 → (if asInt (toWord x.result) > 0 then (toWord x.result).toNat else 0) = 0) :
    Writes (doGetdents call) σ (call.args 1) (if asInt (toWord x.result) > 0 then (toWord x.result).toNat else 0)
      x.buffer (call.answer (toWord x.result)) := by
  refine writes_file hx fun f hf hfits hperform => ?_
  have hfits : Fits σ (call.args 2).toNat := of_decide_eq_true hfits
  obtain ⟨t, ht, hmem, _⟩ := fsCall_perform (.getdents f.localFD ((call.args 2).toNat % 2 ^ 32)) hperform
  refine Writes.bind (newVector_fits hfits) rfl (Writes.bind ht hmem ?_)
  dsimp only
  split
  · rename_i hpos
    rw [if_pos hpos] at hs
    exact writes_vectorAnswer (BitVec.isLt _) hs
  · exact .none rfl rfl

open Filesystem in
theorem doLseek_writes (hx : σ.askFile call σ.errno (fun _ => true)
      (fun f => bare (fsLseek f.fs f.localFD (asOff (call.args 1)) (asInt (call.args 2)))) = some x) :
    Writes (doLseek call) σ addr 0 buf (call.answer (toWord x.result)) := by
  refine writes_file hx fun f hf _ hperform => ?_
  obtain ⟨t, ht, hmem⟩ := fsCall_bare (.lseek f.localFD (asOff (call.args 1)) (asInt (call.args 2))) hperform
  exact Writes.bind ht hmem (.none rfl rfl)

omit [Filesystem F W] in
/-- Reading the child's memory leaves it alone. -/
theorem copyData_mem {n : Nat} {b : Buffer} {s p : Ptrace} {r : Buffer × Bool}
    (h : copyData addr n b s = .ok r p) : p.mem = s.mem := by
  by_cases hw : WordsMapped s.mem addr n
  · obtain ⟨r', e, hrun⟩ := copyData_run b hw
    rw [hrun] at h
    cases h
    rfl
  · rw [copyData_unmapped b hw] at h
    cases h

open Filesystem in
theorem doWrite_writes {r : Buffer × Bool} {p : Ptrace}
    (hcopy : copyData (call.args 1) (call.args 2).toNat (zeroed (call.args 2).toNat σ.slack) ⟨σ.mem, σ.errno⟩ = .ok r p)
    (hx : σ.askFile call p.errno (fun _ => Fits σ (call.args 2).toNat)
      (fun f => bare (fsWrite f.fs f.localFD r.1 (call.args 2).toNat)) = some x) :
    Writes (doWrite call) σ addr 0 buf (call.answer (toWord x.result)) := by
  refine writes_file hx fun f hf hfits hperform => ?_
  have hfits : Fits σ (call.args 2).toNat := of_decide_eq_true hfits
  have hp : ptrace (copyData (call.args 1) (call.args 2).toNat (zeroed (call.args 2).toNat σ.slack)) σ =
      .ok r { σ with mem := p.mem, errno := p.errno } := by simp only [ptrace, hcopy]
  obtain ⟨t, ht, hmem⟩ := fsCall_bare (σ := { σ with mem := p.mem, errno := p.errno })
    (.write f.localFD (call.args 2).toNat) hperform
  refine Writes.bind (newVector_fits hfits) rfl (Writes.bind hp (copyData_mem hcopy) ?_)
  exact Writes.bind ht hmem (.none rfl rfl)

open Filesystem in
theorem doClose_writes (hx : σ.askFile call σ.errno (fun f => f.localFD > 0)
      (fun f => bare (fsClose f.fs f.localFD)) = some x) :
    Writes (doClose call) σ addr 0 buf (call.answer (toWord x.result)) := by
  refine writes_file hx fun f hf hopen hperform => ?_
  have hopen : f.localFD > 0 := of_decide_eq_true hopen
  obtain ⟨t, ht, hmem⟩ := fsCall_bare (.close f.localFD) hperform
  have hclose : f.close σ = .ok (x.result, { f with localFD := -1 }) t := by
    rw [File.close, if_pos hopen, bind_ok ht]
    rfl
  exact Writes.bind hclose hmem (.none rfl rfl)

open Filesystem in
theorem doAccess_writes
    (hx : σ.askPath call true (fun path fs => bare (fsAccess fs path (asInt (call.args 1)))) = some x) :
    Writes (doAccess call) σ addr 0 buf (call.answer (toWord x.result)) := by
  refine writes_path hx fun path fs hg _ hperform => ?_
  obtain ⟨t, ht, hmem⟩ := fsCall_bare (σ := { σ with errno := 0 }) (.access path (asInt (call.args 1))) hperform
  exact Writes.bind ht hmem (.none rfl rfl)

omit [Filesystem F W] in
theorem statWith_writes {request : Str → Request} {op : F → Str → Buffer → StateM (Host W) (Int × Buffer)}
    (hx : σ.askPath call true (fun _ fs => op fs (σ.nameAt (call.args 0)) σ.stack) = some x) :
    Writes (statWith request op call) σ (call.args 1) (if toWord x.result = 0 then sizeofStat else 0) x.buffer
      (call.answer (toWord x.result)) := by
  refine writes_path hx fun path fs hg _ hperform => ?_
  obtain ⟨t, ht, hmem, _⟩ := fsCall_perform (σ := { σ with errno := 0 }) (request (σ.nameAt (call.args 0))) hperform
  refine Writes.bind (b := { σ with errno := 0 }) rfl rfl (Writes.bind ht hmem ?_)
  exact writes_ite (by decide)

open Filesystem in
theorem doReadlink_writes (hx : σ.askPath call (Fits σ (call.args 2).toNat)
      (fun path fs => fsReadlink fs path (zeroed (call.args 2).toNat σ.slack) (call.args 2).toNat) = some x) :
    Writes (doReadlink call) σ (call.args 1) (min (call.args 2).toNat (toWord x.result).toNat) x.buffer
      (call.answer (toWord x.result)) := by
  refine writes_path hx fun path fs hg hfits hperform => ?_
  have hfits : Fits { σ with errno := 0 } (call.args 2).toNat := of_decide_eq_true hfits
  obtain ⟨t, ht, hmem, _⟩ := fsCall_perform (σ := { σ with errno := 0 }) (.readlink path (call.args 2).toNat) hperform
  refine Writes.bind (newVector_fits hfits) rfl (Writes.bind ht hmem ?_)
  refine writes_vectorAnswer (by omega) fun h0 => ?_
  rw [h0, Nat.zero_min]

/-- What the child gets from an exchange, whatever the call. -/
theorem exchange_run (hx : σ.exchange call = some x) (hs : x.Backed call) :
    Writes (handleSyscall call) σ (call.args 1) (x.length call) x.buffer
      (call.answer (toWord (x.returned call))) := by
  obtain ⟨id, args, returnVal⟩ := call
  unfold Tracer.exchange at hx
  dsimp only at hx
  rcases ite_eq_iff.1 hx with ⟨rfl, hx⟩ | ⟨-, hx⟩
  · exact doRead_writes hx (hs (.inl rfl))
  rcases ite_eq_iff.1 hx with ⟨rfl, hx⟩ | ⟨-, hx⟩
  · exact doFstat_writes hx
  rcases ite_eq_iff.1 hx with ⟨rfl, hx⟩ | ⟨-, hx⟩
  · exact doGetdents_writes hx (hs (.inr rfl))
  rcases ite_eq_iff.1 hx with ⟨rfl, hx⟩ | ⟨-, hx⟩
  · exact doLseek_writes hx
  rcases ite_eq_iff.1 hx with ⟨rfl, hx⟩ | ⟨-, hx⟩
  · split at hx
    · rename_i r p hcopy
      exact doWrite_writes hcopy hx
    · cases hx
  rcases ite_eq_iff.1 hx with ⟨rfl, hx⟩ | ⟨-, hx⟩
  · exact doClose_writes hx
  rcases ite_eq_iff.1 hx with ⟨rfl, hx⟩ | ⟨-, hx⟩
  · exact doAccess_writes hx
  rcases ite_eq_iff.1 hx with ⟨rfl, hx⟩ | ⟨-, hx⟩
  · exact statWith_writes hx
  rcases ite_eq_iff.1 hx with ⟨rfl, hx⟩ | ⟨-, hx⟩
  · exact statWith_writes hx
  rcases ite_eq_iff.1 hx with ⟨rfl, hx⟩ | ⟨-, hx⟩
  · exact doReadlink_writes hx
  · cases hx

omit [Filesystem F W] in
theorem backed_of_ne (hread : call.id ≠ SYS_read) (hdents : call.id ≠ SYS_getdents) : x.Backed call := fun hid =>
  absurd hid (not_or.2 ⟨hread, hdents⟩)

/-! ## What was asked -/

omit [Filesystem F W] in
theorem askFile_some {errno : Errno} {ready : File F → Bool} {op : File F → StateM (Host W) (Int × Buffer)}
    (hx : σ.askFile call errno ready op = some x) :
    ∃ f, σ.vfs.openFiles[asInt (call.args 0)]? = some f ∧ ready f = true ∧ x = σ.perform f.fs errno (op f) := by
  unfold Tracer.askFile at hx
  split at hx
  · split at hx
    · rename_i f hf
      split at hx
      · rename_i hready
        exact ⟨f, hf, hready, (Option.some.inj hx).symm⟩
      · cases hx
    · cases hx
  · cases hx

omit [Filesystem F W] in
theorem askPath_some {ready : Bool} {op : Str → F → StateM (Host W) (Int × Buffer)}
    (hx : σ.askPath call ready op = some x) :
    ∃ path fs, σ.vfs.getFilesystem (σ.nameAt (call.args 0)) = .ok (some (path, fs)) ∧ ready = true ∧
      x = σ.perform fs 0 (op path fs) := by
  unfold Tracer.askPath at hx
  split at hx
  · rename_i h
    split at hx
    · rename_i path fs hg
      exact ⟨path, fs, hg, h.2.2, (Option.some.inj hx).symm⟩
    · cases hx
  · cases hx

omit [Filesystem F W] in
theorem askPath_of {ready : Bool} {path : Str} {fs : F} {op : Str → F → StateM (Host W) (Int × Buffer)}
    (hready : ready = true) (hread : Readable σ.mem (call.args 0) 1024)
    (hw : isWhitelisted (σ.nameAt (call.args 0)) = false)
    (hg : σ.vfs.getFilesystem (σ.nameAt (call.args 0)) = .ok (some (path, fs))) :
    σ.askPath call ready op = some (σ.perform fs 0 (op path fs)) := by
  unfold Tracer.askPath
  rw [if_pos ⟨hread, hw, hready⟩, hg]

/-! The exchange of a path call whose name resolves. -/

section
variable {path : Str} {fs : F} (hread : Readable σ.mem (call.args 0) 1024)
  (hw : isWhitelisted (σ.nameAt (call.args 0)) = false)
  (hg : σ.vfs.getFilesystem (σ.nameAt (call.args 0)) = .ok (some (path, fs)))
include hread hw hg

open Filesystem in
theorem exchange_access (hid : call.id = SYS_access) :
    σ.exchange call = some (σ.perform fs 0 (bare (fsAccess fs path (asInt (call.args 1))))) := by
  unfold Tracer.exchange
  rw [hid]
  dsimp only
  iterate 6 rw [if_neg (by decide)]
  rw [if_pos rfl]
  exact askPath_of rfl hread hw hg

open Filesystem in
theorem exchange_stat (hid : call.id = SYS_stat) :
    σ.exchange call = some (σ.perform fs 0 (fsStat fs (σ.nameAt (call.args 0)) σ.stack)) := by
  unfold Tracer.exchange
  rw [hid]
  dsimp only
  iterate 7 rw [if_neg (by decide)]
  rw [if_pos rfl]
  exact askPath_of rfl hread hw hg

open Filesystem in
theorem exchange_lstat (hid : call.id = SYS_lstat) :
    σ.exchange call = some (σ.perform fs 0 (fsLstat fs (σ.nameAt (call.args 0)) σ.stack)) := by
  unfold Tracer.exchange
  rw [hid]
  dsimp only
  iterate 8 rw [if_neg (by decide)]
  rw [if_pos rfl]
  exact askPath_of rfl hread hw hg

open Filesystem in
theorem exchange_readlink_of (hid : call.id = SYS_readlink) (hfits : Fits σ (call.args 2).toNat) :
    σ.exchange call =
      some (σ.perform fs 0 (fsReadlink fs path (zeroed (call.args 2).toNat σ.slack) (call.args 2).toNat)) := by
  unfold Tracer.exchange
  rw [hid]
  dsimp only
  iterate 9 rw [if_neg (by decide)]
  rw [if_pos rfl]
  exact askPath_of (decide_eq_true hfits) hread hw hg

end

theorem exchange_read (hx : σ.exchange call = some x) (hid : call.id = SYS_read) :
    x.before = σ.errno ∧ Fits σ (call.args 2).toNat := by
  unfold Tracer.exchange at hx
  rw [if_pos hid] at hx
  obtain ⟨f, _, hfits, rfl⟩ := askFile_some hx
  exact ⟨rfl, of_decide_eq_true hfits⟩

theorem exchange_readlink (hx : σ.exchange call = some x) (hid : call.id = SYS_readlink) :
    Fits σ (call.args 2).toNat := by
  obtain ⟨id, args, returnVal⟩ := call
  dsimp only at hid
  subst hid
  unfold Tracer.exchange at hx
  dsimp only at hx
  iterate 9 rw [if_neg (by decide)] at hx
  rw [if_pos rfl] at hx
  obtain ⟨_, _, _, hfits, _⟩ := askPath_some hx
  exact of_decide_eq_true hfits

/-! ## Lengths -/

omit [Filesystem F W]

theorem toNat_toWord {n : Int} (h0 : 0 ≤ n) (h : n < 2 ^ 63) : (toWord n).toNat = n.toNat := by
  rw [toWord, BitVec.toNat_ofInt]
  omega

theorem le_toNat_toWord {n : Int} (hlo : -(2 ^ 63) ≤ n) (hneg : n < 0) : 2 ^ 63 ≤ (toWord n).toNat := by
  rw [toWord, BitVec.toNat_ofInt]
  omega

theorem toWord_eq_iff {n k : Int} (hn : -(2 ^ 63) ≤ n ∧ n < 2 ^ 63) (hk : -(2 ^ 63) ≤ k ∧ k < 2 ^ 63) :
    toWord n = toWord k ↔ n = k := by
  have hsigned : ∀ i : Int, -(2 ^ 63) ≤ i ∧ i < 2 ^ 63 → (toWord i).toInt = i := by
    intro i hi
    rw [toWord, BitVec.toInt_ofInt]
    exact Int.bmod_eq_of_le (by omega) (by omega)
  refine ⟨fun h => ?_, fun h => h ▸ rfl⟩
  rw [← hsigned n hn, ← hsigned k hk, h]

theorem IsInt.long {n : Int} (h : IsInt n) : -(2 ^ 63) ≤ n ∧ n < 2 ^ 63 := by
  unfold IsInt at h
  omega

theorem IsInt.neg_long {n : Int} (h : IsInt n) : -(2 ^ 63) ≤ -n ∧ -n < 2 ^ 63 := by
  unfold IsInt at h
  omega

/-- Of a failure, all handlers but that of `readlink` write nothing; that one writes the whole buffer. -/
theorem length_of_neg (hlo : -(2 ^ 63) ≤ x.result) (hneg : x.result < 0)
    (hdents : call.id = SYS_getdents → IsInt x.result)
    (hn : call.id = SYS_readlink → (call.args 2).toNat ≤ vectorMaxSize) :
    x.length call = if call.id = SYS_readlink then (call.args 2).toNat else 0 := by
  have hne : toWord x.result ≠ 0 := fun h => by
    have hz : x.result = 0 := (toWord_eq_iff ⟨hlo, by omega⟩ (by decide)).1 h
    omega
  have hnn : ¬ x.result ≥ 0 := by omega
  unfold Exchange.length
  rw [if_neg hnn, if_neg hne]
  by_cases hl : call.id = SYS_readlink
  · have hread : call.id ≠ SYS_read := by rw [hl]; decide
    have hdent : call.id ≠ SYS_getdents := by rw [hl]; decide
    have hhuge := le_toNat_toWord hlo hneg
    have hle := hn hl
    rw [if_neg hread, if_neg hdent, if_pos hl, if_pos hl]
    unfold vectorMaxSize at hle
    omega
  · by_cases hd : call.id = SYS_getdents
    · have hread : call.id ≠ SYS_read := by rw [hd]; decide
      have hlt : ¬ asInt (toWord x.result) > 0 := by
        rw [asInt_toWord (hdents hd)]
        omega
      rw [if_neg hread, if_pos hd, if_neg hlt, if_neg hl]
    · simp [hl, hd]

/-- A failure copies no byte of an empty vector. -/
theorem backed_of_neg (hlo : -(2 ^ 63) ≤ x.result) (hneg : x.result < 0)
    (hdents : call.id = SYS_getdents → IsInt x.result) : x.Backed call := by
  intro hid _
  have hlink : call.id ≠ SYS_readlink := by
    rcases hid with h | h <;> rw [h] <;> decide
  rw [length_of_neg hlo hneg hdents fun hl => absurd hl hlink, if_neg hlink]

end

end CodiusSandbox
