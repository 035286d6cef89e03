import CodiusSandbox.SandboxPrivate
import CodiusSandbox.Copying
import CodiusSandbox.PathNames
import Mathlib.Data.List.GetD
/-!
# The scratch buffer in the stack of a new program (`sandbox.cpp:71-106`)

`handleExecEvent` walks the table of the environment's strings behind the arguments' and takes the first that
starts with `CODIUS_SCRATCH_BUFFER=`. It looks at the first 1024 bytes of a string, by whole words.

* `environLoop_search` — the loop finds what a search through the list of strings finds.
* `finds_scratch_iff`  — the stacks on which the event finds the buffer.
-/
namespace CodiusSandbox

open Wp

/-! ## The stack -/

/-- The word at `addr` is mapped and holds `w`. -/
def WordAt (m : Memory) (addr : Address) (w : Word) : Prop :=
  WordMapped m addr ∧ Buffer.word (fun j => byteAt m (offset addr j)) = w

instance (m : Memory) (addr : Address) (w : Word) : Decidable (WordAt m addr w) :=
  inferInstanceAs (Decidable (_ ∧ _))

/-- Pointers one behind the other, and a null pointer. -/
def PointersAt (m : Memory) : Address → List Word → Prop
  | addr, [] => WordAt m addr 0
  | addr, p :: pointers => WordAt m addr p ∧ p ≠ 0 ∧ PointersAt m (offset addr 8) pointers

instance decidablePointersAt (m : Memory) : ∀ (addr : Address) (pointers : List Word), Decidable (PointersAt m addr pointers)
  | addr, [] => inferInstanceAs (Decidable (WordAt m addr 0))
  | addr, p :: pointers =>
    have := decidablePointersAt m (offset addr 8) pointers
    inferInstanceAs (Decidable (WordAt m addr p ∧ p ≠ 0 ∧ PointersAt m (offset addr 8) pointers))

/-- A string that the stack points to, with its address: it does not go round the end of the address space. -/
structure StringAt (m : Memory) (p : Address × Str) : Prop where
  path : PathAt m p.1 p.2
  inside : p.1.toNat + p.2.length < 2 ^ 64

/-- The stack that a program starts with: the number of arguments, the arguments and the environment. -/
structure InitialStack (m : Memory) (rsp : Address) (argv env : List (Address × Str)) : Prop where
  argc : WordAt m rsp (BitVec.ofNat 64 argv.length)
  /-- `argc` is an `int`. -/
  isInt : argv.length < 2 ^ 31
  args : PointersAt m (offset rsp 8) (argv.map Prod.fst)
  vars : PointersAt m (offset rsp (8 * (argv.length + 2))) (env.map Prod.fst)
  strings : ∀ p ∈ argv ++ env, StringAt m p

/-- `p` is the first variable that names the scratch buffer, behind those of `before`. -/
def FirstScratch (env before : List (Address × Str)) (p : Address × Str) : Prop :=
  (∃ after, env = before ++ p :: after) ∧ (∀ q ∈ before, ¬ needle <+: q.2) ∧ needle <+: p.2

section
variable {m : Memory} {addr : Address} {n text : Str} {buf : Buffer}

/-! ## Comparing -/

/-- A copy is the string as far as it goes. -/
theorem CopiedString.byte {k : Nat} (hc : CopiedString m addr 1024 buf) (h : PathAt m addr n) (hk : k < 1024)
    (hkn : k ≤ n.length) : buf k = n.getD k 0 := by
  have hbyte : ∀ j (hj : j < n.length), byteAt m (offset addr j) = n[j] := by
    intro j hj
    rw [byteAt, h.bytes j hj]
    rfl
  have hnn : NoNul m addr k := by
    intro j hj h0
    have hj' : j < n.length := by omega
    rw [h.bytes j hj'] at h0
    exact h.noNul (Option.some.inj h0 ▸ List.getElem_mem hj')
  rw [hc k hk hnn]
  by_cases hlt : k < n.length
  · rw [hbyte k hlt, List.getD_eq_getElem _ _ hlt]
  · obtain rfl : k = n.length := by omega
    rw [byteAt, h.nul, List.getD_eq_default _ _ (Nat.le_refl _)]
    rfl

theorem Str.bytes_getElem {k : Nat} (hk : k < text.length) : Str.bytes text k = text[k] := List.getD_eq_getElem _ _ hk

/-- Where `strncmp` finds no difference, the string goes on at least as far as the text. -/
theorem StrncmpEq.getElem? (heq : StrncmpEq buf (Str.bytes text) text.length) (hc : CopiedString m addr 1024 buf)
    (h : PathAt m addr n) (hnz : 0 ∉ text) (hlen : text.length ≤ 1024) (k : Nat) (hk : k < text.length) :
    n[k]? = some text[k] := by
  -- the bytes before `k` agree and are no NUL, so `strncmp` gets to `k`
  induction k using Nat.strongRecOn with
  | ind k ih =>
    have hle : k ≤ n.length := by
      rcases Nat.eq_zero_or_pos k with rfl | hpos
      · exact Nat.zero_le _
      · have hlast := (List.getElem?_eq_some_iff.1 (ih (k - 1) (by omega) (by omega))).1
        omega
    have hbuf : ∀ j ≤ k, buf j = n.getD j 0 := fun j hj => hc.byte h (by omega) (by omega)
    have hbefore : ∀ j < k, buf j = Str.bytes text j ∧ buf j ≠ 0 := by
      intro j hj
      have hjt : j < text.length := by omega
      have hbyte : buf j = text[j] := by
        rw [hbuf j (by omega), List.getD_eq_getElem?_getD, ih j hj hjt]
        rfl
      rw [Str.bytes_getElem hjt, hbyte]
      exact ⟨rfl, fun h0 => hnz (h0 ▸ List.getElem_mem hjt)⟩
    have hsame : n.getD k 0 = text[k] := by rw [← hbuf k (Nat.le_refl k), heq k hk hbefore, Str.bytes_getElem hk]
    rcases Nat.lt_or_ge k n.length with hlt | hge
    · rw [List.getElem?_eq_getElem hlt, ← hsame, List.getD_eq_getElem _ _ hlt]
    · rw [List.getD_eq_default _ _ hge] at hsame
      exact absurd (hsame ▸ List.getElem_mem hk) hnz

/-- `strncmp` on the copy finds the strings that start with the text. -/
theorem strncmpEq_iff (hc : CopiedString m addr 1024 buf) (h : PathAt m addr n) (hnz : 0 ∉ text)
    (hlen : text.length ≤ 1024) : StrncmpEq buf (Str.bytes text) text.length ↔ text <+: n := by
  rw [List.prefix_iff_getElem?]
  constructor
  · intro heq k hk
    exact heq.getElem? hc h hnz hlen k hk
  · intro hp k hk _
    have hlt : k < n.length := (List.getElem?_eq_some_iff.1 (hp k hk)).1
    rw [hc.byte h (by omega) (by omega), Str.bytes_getElem hk, List.getD_eq_getElem?_getD, hp k hk]
    rfl

end

/-! ## The loop -/

/-- What the loop makes of the strings: `none` where a word that it needs is not mapped, else the address of the
buffer if there is one. -/
def searchScratch (m : Memory) : List (Address × Str) → Option (Option Address)
  | [] => some none
  | p :: env =>
    if Readable m p.1 1024 then
      if needle <+: p.2 then some (some (offset p.1 needle.length)) else searchScratch m env
    else none

variable {F W : Type} {s : SandboxPrivate F W} {pid : Int} {regs : Regs}

/-- What the `ptrace` helpers see. -/
def SandboxPrivate.child (s : SandboxPrivate F W) : Ptrace := ⟨s.sandbox.tracer.mem, s.sandbox.tracer.errno⟩

/-- The state behind what has only read. -/
def SandboxPrivate.withErrno (s : SandboxPrivate F W) (errno : Errno) : SandboxPrivate F W :=
  { s with sandbox := { s.sandbox with tracer := { s.sandbox.tracer with errno := errno } } }

/-- The state behind the loop. -/
def SandboxPrivate.searched (s : SandboxPrivate F W) (errno : Errno) (found : Option Address) : SandboxPrivate F W :=
  { s with
    sandbox := { s.sandbox with
      tracer := { s.sandbox.tracer with errno := errno }
      scratchAddr := found.getD s.sandbox.scratchAddr } }

theorem onMemory_ok {α : Type} {x : PtraceM α} {a : α} {e : Errno} (h : x s.child = .ok a { s.child with errno := e }) :
    onMemory x s = .ok a (s.withErrno e) := by
  have hp : ptrace x s.sandbox.tracer = .ok a { s.sandbox.tracer with errno := e } := by
    change x ⟨s.sandbox.tracer.mem, s.sandbox.tracer.errno⟩ = _ at h
    simp only [ptrace, h]
    rfl
  exact onSandbox_ok (onTracer_ok hp)

theorem onMemory_error {α : Type} {x : PtraceM α} {e : Errno} {c : Crash}
    (h : x s.child = .error c { s.child with errno := e }) : onMemory x s = .error (.crash c) (s.withErrno e) := by
  have hp : ptrace x s.sandbox.tracer = .error c { s.sandbox.tracer with errno := e } := by
    change x ⟨s.sandbox.tracer.mem, s.sandbox.tracer.errno⟩ = _ at h
    simp only [ptrace, h]
    rfl
  exact onSandbox_error (onTracer_error hp)

theorem WordAt.peek {addr : Address} {w : Word} (h : WordAt s.child.mem addr w) :
    ∃ d, onMemory (peekData addr) s = .ok d (s.withErrno 0) ∧ Buffer.word d = w :=
  ⟨_, onMemory_ok (peekData_mapped h.1), h.2⟩

theorem PointersAt.head {m : Memory} {addr : Address} {pointers : List Word} (h : PointersAt m addr pointers) :
    WordAt m addr (pointers.headD 0) := by
  cases pointers with
  | nil => exact h
  | cons p pointers => exact h.1

theorem environLoop_search (env : List (Address × Str)) :
    ∀ (fuel : Nat) (addr : Address) (s : SandboxPrivate F W), env.length < fuel →
      PointersAt s.child.mem addr (env.map Prod.fst) → (∀ p ∈ env, PathAt s.child.mem p.1 p.2) →
      (∀ found, searchScratch s.child.mem env = some found →
        ∃ e, environLoop fuel addr ((env.map Prod.fst).headD 0) s = .ok true (s.searched e found)) ∧
      (searchScratch s.child.mem env = none →
        ∃ t, environLoop fuel addr ((env.map Prod.fst).headD 0) s = .error (.crash .assertion) t) := by
  induction env with
  | nil =>
    intro fuel addr s hf _ _
    obtain ⟨fuel, rfl⟩ : ∃ n, fuel = n + 1 := ⟨fuel - 1, by simp at hf; omega⟩
    refine ⟨?_, by simp [searchScratch]⟩
    intro found hfound
    cases hfound
    exact ⟨s.sandbox.tracer.errno, rfl⟩
  | cons p env ih =>
    intro fuel addr s hf hpointers hstrings
    simp only [List.length_cons] at hf
    obtain ⟨fuel, rfl⟩ : ∃ n, fuel = n + 1 := ⟨fuel - 1, by omega⟩
    obtain ⟨-, hne, hrest⟩ := hpointers
    have hpath := hstrings p (by simp)
    have hnext := ih fuel (offset addr 8) (s.withErrno 0) (by omega) hrest fun q hq => hstrings q (by simp [hq])
    simp only [List.map_cons, List.headD_cons, searchScratch]
    rw [environLoop, if_neg hne, bind_get]
    by_cases hr : Readable s.child.mem p.1 1024
    · obtain ⟨buf, hrun, hcopied, -⟩ := copyString_readable s.sandbox.tracer.stack (by omega) (by omega) hr
      have hcmp : StrncmpEq buf (Str.bytes needle) needle.length ↔ needle <+: p.2 :=
        strncmpEq_iff hcopied hpath (by decide) (by decide)
      rw [bind_ok (onMemory_ok hrun), if_pos hr]
      dsimp only
      by_cases hneedle : needle <+: p.2
      · rw [if_pos hneedle, if_pos (hcmp.2 hneedle)]
        refine ⟨?_, by simp⟩
        intro found hfound
        cases hfound
        exact ⟨0, rfl⟩
      · obtain ⟨d, hpeek, hword⟩ := WordAt.peek (s := s.withErrno 0) hrest.head
        rw [if_neg hneedle, if_neg (mt hcmp.1 hneedle), bind_ok hpeek, hword]
        exact hnext
    · rw [if_neg hr, bind_error (onMemory_error (copyString_unreadable _ (by omega) hr))]
      exact ⟨by simp, fun _ => ⟨_, rfl⟩⟩

/-! ## The search -/

theorem search_first {m : Memory} {env before : List (Address × Str)} {p : Address × Str}
    (h : FirstScratch env before p) :
    searchScratch m env =
      if ∀ q ∈ before ++ [p], Readable m q.1 1024 then some (some (offset p.1 needle.length)) else none := by
  obtain ⟨⟨after, rfl⟩, hbefore, hp⟩ := h
  induction before with
  | nil => simp [searchScratch, hp]
  | cons q before ih =>
    have hq : ¬ needle <+: q.2 := hbefore q (by simp)
    rw [List.cons_append, searchScratch, if_neg hq, ih fun q' hq' => hbefore q' (by simp [hq'])]
    by_cases hr : Readable m q.1 1024
    · simp only [hr, if_true, List.cons_append, List.forall_mem_cons, true_and]
    · simp [hr]

theorem StringAt.scratch_ne_zero {m : Memory} {p : Address × Str} (h : StringAt m p) (hp : needle <+: p.2) :
    offset p.1 needle.length ≠ 0 := by
  intro h0
  have hlen := hp.length_le
  have hneedle : needle.length = 22 := by decide
  have hnat := congrArg BitVec.toNat h0
  rw [offset, BitVec.toNat_add, BitVec.toNat_ofNat] at hnat
  have hzero : (0 : Address).toNat = 0 := rfl
  have := h.inside
  omega

/-! ## The way to the loop -/

theorem Buffer.word_congr {d d' : Buffer} (h : ∀ j < 8, d j = d' j) : d.word = d'.word := by
  have hmap : (List.range 8).map d = (List.range 8).map d' :=
    List.map_congr_left fun j hj => h j (List.mem_range.1 hj)
  rw [Buffer.word, hmap, Buffer.word]

/-- `argc` is the low half of the word at the stack pointer. -/
theorem argc_read {rsp : Address} {argc : Nat} (buf : Buffer) (h : WordAt s.child.mem rsp (BitVec.ofNat 64 argc))
    (hint : argc < 2 ^ 31) :
    ∃ d r e, onMemory (copyData rsp 4 buf) s = .ok (d, r) (s.withErrno e) ∧ asInt d.word = argc := by
  have hm : WordsMapped s.child.mem rsp 4 := by
    intro i hi h8
    obtain rfl : i = 0 := by omega
    rw [offset_zero]
    exact h.1
  obtain ⟨r, e, hrun⟩ := copyData_run buf hm
  refine ⟨_, r, e, onMemory_ok hrun, ?_⟩
  have hword : (copiedFrom s.child.mem rsp 4 0 buf).word = BitVec.ofNat 64 argc := by
    rw [← h.2]
    refine Buffer.word_congr fun j hj => if_pos ⟨Nat.zero_le j, hj⟩
  have hto : BitVec.ofNat 64 argc = toWord argc := by rw [toWord, BitVec.ofInt_natCast]
  rw [hword, hto]
  exact asInt_toWord ⟨by omega, by omega⟩

theorem environAddr_eq (rsp : Address) (argc : Nat) :
    rsp + 8 * toWord ((argc : Int) + 2) = offset rsp (8 * (argc + 2)) := by
  have hto : toWord ((argc : Int) + 2) = BitVec.ofNat 64 (argc + 2) := by
    rw [toWord, ← BitVec.ofInt_natCast]
    rfl
  rw [hto, offset, BitVec.ofNat_mul]
  rfl

/-- The state in which the stack is read. -/
def SandboxPrivate.entered (s : SandboxPrivate F W) : SandboxPrivate F W := { s with enteredMain := true }

section Event

variable {argv env : List (Address × Str)} (hfirst : s.enteredMain = false) (hregs : s.stopped pid = some regs)
  (hstack : InitialStack s.child.mem regs.rsp argv env)
include hfirst hregs hstack

theorem handleExecEvent_overflow (h : ¬ argv.length + 2 < 2 ^ 31) (fuel : Nat) :
    ∃ t, handleExecEvent pid fuel s = .error .overflow t := by
  have hr : s.entered.stopped pid = some regs := hregs
  have hargc : WordAt s.entered.child.mem regs.rsp (BitVec.ofNat 64 argv.length) := hstack.argc
  obtain ⟨d, r, e, hrun, hd⟩ := argc_read s.sandbox.tracer.stack hargc hstack.isInt
  refine ⟨s.entered.withErrno e, ?_⟩
  rw [handleExecEvent, bind_get, if_pos hfirst, bind_set]
  change (getRegs pid _ >>= _) s.entered = _
  rw [bind_ok (getRegs_stopped hr)]
  dsimp only
  rw [bind_ok hrun]
  dsimp only
  rw [hd, if_pos (by omega)]
  rfl

theorem handleExecEvent_loop (h : argv.length + 2 < 2 ^ 31) (fuel : Nat) :
    handleExecEvent pid fuel s =
      (environLoop fuel (offset regs.rsp (8 * (argv.length + 2))) ((env.map Prod.fst).headD 0) >>= assertScratch)
        (s.entered.withErrno 0) := by
  have hr : s.entered.stopped pid = some regs := hregs
  have hargc : WordAt s.entered.child.mem regs.rsp (BitVec.ofNat 64 argv.length) := hstack.argc
  obtain ⟨d, r, e, hrun, hd⟩ := argc_read s.sandbox.tracer.stack hargc hstack.isInt
  have hhead : WordAt (s.entered.withErrno e).child.mem (offset regs.rsp (8 * (argv.length + 2)))
      ((env.map Prod.fst).headD 0) := hstack.vars.head
  obtain ⟨d', hpeek, hd'⟩ := hhead.peek
  rw [handleExecEvent, bind_get, if_pos hfirst, bind_set]
  change (getRegs pid _ >>= _) s.entered = _
  rw [bind_ok (getRegs_stopped hr)]
  dsimp only
  rw [bind_ok hrun]
  dsimp only
  rw [hd, if_neg (by omega), environAddr_eq]
  rw [bind_ok hpeek, hd']
  rfl

/-- With fuel for every string: the event ends as the search does. -/
theorem handleExecEvent_found (h : argv.length + 2 < 2 ^ 31) {fuel : Nat} (hf : env.length < fuel)
    {found : Option Address} (hs : searchScratch s.child.mem env = some found) :
    ∃ e, handleExecEvent pid fuel s = assertScratch true (s.entered.searched e found) := by
  obtain ⟨hok, -⟩ := environLoop_search env fuel _ (s.entered.withErrno 0) hf hstack.vars
    fun p hp => (hstack.strings p (by simp [hp])).path
  obtain ⟨e, hrun⟩ := hok found hs
  exact ⟨e, by rw [handleExecEvent_loop hfirst hregs hstack h, bind_ok hrun]; rfl⟩

theorem handleExecEvent_unmapped (h : argv.length + 2 < 2 ^ 31) {fuel : Nat} (hf : env.length < fuel)
    (hs : searchScratch s.child.mem env = none) :
    ∃ t, handleExecEvent pid fuel s = .error (.crash .assertion) t := by
  obtain ⟨-, herr⟩ := environLoop_search env fuel _ (s.entered.withErrno 0) hf hstack.vars
    fun p hp => (hstack.strings p (by simp [hp])).path
  obtain ⟨t, hrun⟩ := herr hs
  exact ⟨t, by rw [handleExecEvent_loop hfirst hregs hstack h, bind_error hrun]⟩

end Event

/-! ## Whether the buffer is found -/

/-- The event comes to an end, and where a variable names the buffer its value is what `scratchAddr` points to. -/
structure FindsScratch (s : SandboxPrivate F W) (pid : Int) (env : List (Address × Str)) : Prop where
  ends : ∃ n, ∀ fuel ≥ n,
    wp (handleExecEvent pid fuel) (fun ended _ => ended = true) (fun e _ => e = .crash .assertion) s
  found : ∀ before p, FirstScratch env before p → ∃ n, ∀ fuel ≥ n,
    Returns (handleExecEvent pid fuel)
      (fun ended t => ended = true ∧ t.sandbox.scratchAddr = offset p.1 needle.length) s

theorem assertScratch_ends : wp (assertScratch true) (fun ended _ => ended = true) (fun e _ => e = .crash .assertion) s := by
  rw [assertScratch, if_pos rfl, wp_bind, wp_get]
  by_cases h0 : s.sandbox.scratchAddr = 0
  · rw [if_pos h0]
    exact rfl
  · rw [if_neg h0]
    exact rfl

theorem assertScratch_ok (h : s.sandbox.scratchAddr ≠ 0) : assertScratch true s = .ok true s := by
  rw [assertScratch, if_pos rfl]
  rw [bind_get, if_neg h]
  rfl

/-- The strings that the loop passes have to be readable. -/
theorem FindsScratch.readable {argv env before : List (Address × Str)} {p : Address × Str} (h : FindsScratch s pid env)
    (hfirst : s.enteredMain = false) (hregs : s.stopped pid = some regs)
    (hstack : InitialStack s.child.mem regs.rsp argv env) (hargc : argv.length + 2 < 2 ^ 31)
    (hp : FirstScratch env before p) : ∀ q ∈ before ++ [p], Readable s.child.mem q.1 1024 := by
  by_contra hread
  have hs : searchScratch s.child.mem env = none := by rw [search_first hp, if_neg hread]
  obtain ⟨n, hn⟩ := h.found before p hp
  have hfuel : env.length < n + env.length + 1 := by omega
  obtain ⟨t, hrun⟩ := handleExecEvent_unmapped hfirst hregs hstack hargc hfuel hs
  exact not_returns_of_error hrun (hn _ (by omega))

/-- On the stack of a program that starts, the event finds the buffer exactly if the number of arguments leaves
room in an `int` and the words of the strings up to the first that names the buffer are mapped. -/
theorem finds_scratch_iff {argv env : List (Address × Str)} (hfirst : s.enteredMain = false)
    (hregs : s.stopped pid = some regs) (hstack : InitialStack s.child.mem regs.rsp argv env) :
    FindsScratch s pid env ↔ argv.length + 2 < 2 ^ 31 ∧
      ∀ before p, FirstScratch env before p → ∀ q ∈ before ++ [p], Readable s.child.mem q.1 1024 := by
  constructor
  · intro h
    have hargc : argv.length + 2 < 2 ^ 31 := by
      by_contra hover
      obtain ⟨n, hn⟩ := h.ends
      obtain ⟨t, hrun⟩ := handleExecEvent_overflow hfirst hregs hstack hover n
      have hend := (wp_error hrun).1 (hn n (Nat.le_refl n))
      cases hend
    exact ⟨hargc, fun before p hp => h.readable hfirst hregs hstack hargc hp⟩
  · rintro ⟨hargc, hread⟩
    refine ⟨⟨env.length + 1, ?_⟩, ?_⟩
    · intro fuel hf
      cases hs : searchScratch s.child.mem env with
      | none =>
        obtain ⟨t, hrun⟩ := handleExecEvent_unmapped hfirst hregs hstack hargc hf hs
        exact (wp_error hrun).2 rfl
      | some found =>
        obtain ⟨e, hrun⟩ := handleExecEvent_found hfirst hregs hstack hargc hf hs
        unfold wp
        rw [hrun]
        exact assertScratch_ends
    · intro before p hp
      refine ⟨env.length + 1, ?_⟩
      intro fuel hf
      have hs : searchScratch s.child.mem env = some (some (offset p.1 needle.length)) := by
        rw [search_first hp, if_pos (hread before p hp)]
      obtain ⟨e, hrun⟩ := handleExecEvent_found hfirst hregs hstack hargc hf hs
      obtain ⟨⟨after, henv⟩, -, hneedle⟩ := hp
      have hne : offset p.1 needle.length ≠ 0 := (hstack.strings p (by simp [henv])).scratch_ne_zero hneedle
      have hok : handleExecEvent pid fuel s = .ok true (s.entered.searched e (some (offset p.1 needle.length))) := by
        rw [hrun]
        exact assertScratch_ok hne
      exact (returns_ok hok).2 ⟨rfl, rfl⟩

/-! ## A stack at the end of what is mapped -/

/-- `argc`, one argument, one variable, and their strings. -/
def stackImage : Str :=
  LittleEndian.toBytes 8 1 ++ LittleEndian.toBytes 8 40 ++ LittleEndian.toBytes 8 0 ++ LittleEndian.toBytes 8 42 ++
    LittleEndian.toBytes 8 0 ++ str "a" ++ 0 :: needle ++ [0]

def stackArgs : List (Address × Str) := [(40, str "a")]

def stackVars : List (Address × Str) := [(42, needle)]

/-- Process 1 starts with these bytes mapped, and its stack pointer at the first. -/
def starting (bytes : Str) : SandboxPrivate Fixed Unit where
  sandbox := ⟨.start { page [] with mem := fun a => bytes[a.toNat]? }, 1, isInt_one, 0, 0, [], []⟩
  enteredMain := false
  regs := fun _ => some ⟨0, 0, 0, 0, 0, 0, 0, 0, 0, 0⟩
  passed := []

theorem starting_stack (rest : Str) (h : rest ∈ [[], List.replicate 8 0]) :
    InitialStack (starting (stackImage ++ rest)).child.mem 0 stackArgs stackVars := by
  have hrest : rest = [] ∨ rest = List.replicate 8 0 := by simpa using h
  have hstrings : ∀ p ∈ stackArgs ++ stackVars, StringAt (starting (stackImage ++ rest)).child.mem p := by
    intro p hp
    obtain rfl | rfl : p = (40, str "a") ∨ p = (42, needle) := by simpa [stackArgs, stackVars] using hp
    · rcases hrest with rfl | rfl <;> exact ⟨by decide +kernel, by decide⟩
    · rcases hrest with rfl | rfl <;> exact ⟨by decide +kernel, by decide⟩
  rcases hrest with rfl | rfl
  · exact ⟨by decide +kernel, by decide, by decide +kernel, by decide +kernel, hstrings⟩
  · exact ⟨by decide +kernel, by decide, by decide +kernel, by decide +kernel, hstrings⟩

/-- With a null word behind the strings. -/
theorem finds_scratch_word :
    (starting (stackImage ++ List.replicate 8 0)).enteredMain = false ∧
      (starting (stackImage ++ List.replicate 8 0)).stopped 1 = some ⟨0, 0, 0, 0, 0, 0, 0, 0, 0, 0⟩ ∧
      InitialStack (starting (stackImage ++ List.replicate 8 0)).child.mem 0 stackArgs stackVars ∧
      (FindsScratch (starting (stackImage ++ List.replicate 8 0)) 1 stackVars ↔ stackArgs.length + 2 < 2 ^ 31 ∧
        ∀ before p, FirstScratch stackVars before p →
          ∀ q ∈ before ++ [p], Readable (starting (stackImage ++ List.replicate 8 0)).child.mem q.1 1024) := by
  have hstack := starting_stack (List.replicate 8 0) (by simp)
  exact ⟨rfl, rfl, hstack, finds_scratch_iff rfl rfl hstack⟩

/-- The buffer's variable is the last thing that is mapped, and its last word is not all there. -/
theorem scratch_at_end : (starting stackImage).enteredMain = false ∧
    (starting stackImage).stopped 1 = some ⟨0, 0, 0, 0, 0, 0, 0, 0, 0, 0⟩ ∧
    InitialStack (starting stackImage).child.mem 0 stackArgs stackVars ∧ FirstScratch stackVars [] (42, needle) ∧
    ¬ FindsScratch (starting stackImage) 1 stackVars := by
  have hstack : InitialStack (starting stackImage).child.mem 0 stackArgs stackVars := starting_stack [] (by simp)
  have hp : FirstScratch stackVars [] (42, needle) := ⟨⟨[], rfl⟩, by simp, List.prefix_rfl⟩
  refine ⟨rfl, rfl, hstack, hp, ?_⟩
  intro h
  have hr := h.readable rfl rfl hstack (by decide) hp (42, needle) (by simp)
  exact absurd (hr 16 (by decide) (by decide) (by decide +kernel)) (by decide +kernel)

end CodiusSandbox
