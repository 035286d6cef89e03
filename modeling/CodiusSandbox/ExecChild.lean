import CodiusSandbox.Sandbox
import Std.Data.ExtTreeMap.Lemmas
/-!
# The descriptors of the child (`sandbox.cpp:150-195`, `sandbox-ipc.cpp`)

| here | there |
| --- | --- |
| `Fds`             | the descriptor table that the child has after `fork`: what each open descriptor refers to |
| `dup2`, `strtol`  | the functions of the C library |
| `SandboxIPC.dup`  | `SandboxIPC::dup` (`sandbox-ipc.cpp:20`) |
| `dupAll`          | the first loop of `Sandbox::execChild` (`sandbox.cpp:157-163`) |
| `scan`            | the loop over the names in `/proc/self/fd/` (`sandbox.cpp:167-191`) |
| `closeUnused`     | `opendir` to the last loop (`sandbox.cpp:165-195`) |

`error (EXIT_FAILURE, …)` is `none`. The names that `readdir` gives and the descriptor that `opendir` takes are
arguments.
-/
namespace CodiusSandbox

/-! ## The table -/

/-- A number a descriptor can have. -/
def IsFd (fd : Int) : Prop := 0 ≤ fd ∧ fd < 2 ^ 31

instance (fd : Int) : Decidable (IsFd fd) := inferInstanceAs (Decidable (_ ∧ _))

structure Fds (D : Type) where
  table : Std.ExtTreeMap Int D
  isFd : ∀ fd ∈ table, IsFd fd

variable {D : Type}

def Fds.get (fds : Fds D) (fd : Int) : Option D := fds.table[fd]?

def Fds.empty : Fds D := ⟨∅, fun _ h => absurd h Std.ExtTreeMap.not_mem_empty⟩

def Fds.set (fds : Fds D) (fd : Int) (d : D) : Fds D :=
  if h : IsFd fd then
    ⟨fds.table.insert fd d, fun k hk => (Std.ExtTreeMap.mem_insert.1 hk).elim
      (fun heq => Std.LawfulEqCmp.eq_of_compare heq ▸ h) (fds.isFd k)⟩
  else fds

/-- `close`; a number that is not open changes nothing. -/
def Fds.close (fds : Fds D) (fd : Int) : Fds D :=
  ⟨fds.table.erase fd, fun k hk => fds.isFd k (Std.ExtTreeMap.mem_of_mem_erase hk)⟩

/-- `dup2 (old, new)`: what it returns, and the table. -/
def dup2 (fds : Fds D) (old new : Int) : Int × Fds D :=
  match fds.get old with
  | some d => if IsFd new then (new, fds.set new d) else (-1, fds)
  | none => (-1, fds)

@[simp] theorem Fds.get_empty (fd : Int) : (Fds.empty : Fds D).get fd = none := Std.ExtTreeMap.getElem?_empty

theorem Fds.get_set (fds : Fds D) {fd : Int} (h : IsFd fd) (d : D) :
    (fds.set fd d).get = Function.update fds.get fd (some d) := by
  funext k
  rw [Fds.set, dif_pos h, Fds.get, Std.ExtTreeMap.getElem?_insert]
  by_cases hk : k = fd
  · subst hk
    simp
  · have hne : ¬ compare fd k = .eq := fun h => hk (Std.LawfulEqCmp.eq_of_compare h).symm
    rw [Function.update_of_ne hk, if_neg hne]
    rfl

theorem Fds.get_close (fds : Fds D) (fd : Int) : (fds.close fd).get = Function.update fds.get fd none := by
  funext k
  rw [Fds.close, Fds.get, Std.ExtTreeMap.getElem?_erase]
  by_cases hk : k = fd
  · subst hk
    simp
  · have hne : ¬ compare fd k = .eq := fun h => hk (Std.LawfulEqCmp.eq_of_compare h).symm
    rw [Function.update_of_ne hk, if_neg hne]
    rfl

theorem Fds.isFd_of_get {fds : Fds D} {fd : Int} (h : (fds.get fd).isSome = true) : IsFd fd :=
  fds.isFd fd (Std.ExtTreeMap.mem_iff_isSome_getElem?.2 h)

/-! ## Channels -/

structure SandboxIPC where
  dupAs : Int
  child : Int
  parent : Int
deriving DecidableEq

def SandboxIPC.dup (ipc : SandboxIPC) (fds : Fds D) : Bool × Fds D :=
  let (r, fds) := dup2 fds ipc.child ipc.dupAs
  (r == ipc.dupAs, fds)

/-- The table, and `permittedFDs` with each `dupAs` pushed behind what it held. -/
def dupAll : List SandboxIPC → List Int → Fds D → Option (List Int × Fds D)
  | [], permittedFDs, fds => some (permittedFDs, fds)
  | ipc :: ipcSockets, permittedFDs, fds =>
    let (bound, fds) := ipc.dup fds
    if bound then dupAll ipcSockets (permittedFDs ++ [ipc.dupAs]) fds
    else none

/-! ## `strtol (s, &end, 10)` -/

def isSpace (c : UInt8) : Bool := c == 32 || 9 ≤ c && c ≤ 13

def isDigit (c : UInt8) : Bool := 48 ≤ c && c ≤ 57

def digitsValue (digits : Str) : Nat := digits.foldl (fun n c => 10 * n + (c.toNat - 48)) 0

/-- What is left of the text behind spaces, and whether there is a minus sign. -/
def signOf (s : Str) : Bool × Str :=
  match s with
  | c :: rest => if c = 45 then (true, rest) else if c = 43 then (false, rest) else (false, s)
  | [] => (false, [])

/-- The number and how far `end` lies behind the start; no digits, no number. -/
def strtol (s : Str) : Int × Nat :=
  let (negative, rest) := signOf (s.dropWhile isSpace)
  let digits := rest.takeWhile isDigit
  if digits = [] then (0, 0)
  else
    let n : Int := if negative then -digitsValue digits else digitsValue digits
    (max (-2 ^ 63) (min (2 ^ 63 - 1) n), s.length - rest.length + digits.length)

/-! ## `execChild` -/

/-- `unusedFDs`. -/
def scan (permittedFDs : List Int) : List Str → List Int
  | [] => []
  | d_name :: names =>
    let (n, e) := strtol d_name
    let fdnum := toInt n
    if e = 0 ∧ fdnum = 0 then scan permittedFDs names
    else if permittedFDs.contains fdnum then scan permittedFDs names
    else fdnum :: scan permittedFDs names

/-- From `opendir`, which takes the descriptor `dirFd`, to the last `close`. -/
def closeUnused (permittedFDs : List Int) (dirFd : Int) (dir : D) (names : List Str) (fds : Fds D) : Fds D :=
  let fds := fds.set dirFd dir
  let unusedFDs := scan permittedFDs names
  let fds := fds.close dirFd
  unusedFDs.foldl Fds.close fds

/-- The table that `execvp` finds. -/
def inheritedFds (ipcSockets : List SandboxIPC) (dirFd : Int) (dir : D) (names : List Str) (fds : Fds D) :
    Option (Fds D) := do
  -- a vector of `size ()` zeros
  let permittedFDs := List.replicate ipcSockets.length 0
  let (permittedFDs, fds) ← dupAll ipcSockets permittedFDs fds
  return closeUnused permittedFDs dirFd dir names fds

end CodiusSandbox
