import CodiusSandbox.Positions
/-!
# Positions of several descriptors (`node-filesystem.cpp:48-97, 125-139`)

`m_offsets` has an entry for a descriptor that was opened, read or moved.

| operation | entry                                                       |
|-----------|-------------------------------------------------------------|
| `open`    | `insert`: 0, but an entry that is there stays               |
| `read`    | `operator[]`: makes one, with 0, and goes on by the reply   |
| `lseek`   | `operator[]`: makes one                                     |
| `close`   | `erase`, before the callback is asked                       |

So an `open` starts at 0 only where no entry is left. `Tracked` says that the descriptors with an entry are
open, and every operation on an open descriptor keeps it (`Tracked.next`).
-/
namespace CodiusSandbox

open Runs

variable {X : Type}

/-! ## Entries -/

/-- No entry but that of `fd` changes. -/
def Touches (fd : Int) (s s' : Node X) : Prop := ∀ fd' ≠ fd, s'.offsets[fd']? = s.offsets[fd']?

section
variable {fd fd' : Int} {s s' s'' : Node X}

theorem Node.position_eq (s : Node X) (fd : Int) : s.position fd = (s.offsets[fd]?).getD 0 :=
  Std.ExtTreeMap.getD_eq_getD_getElem?

theorem Touches.trans (h : Touches fd s s') (h' : Touches fd s' s'') : Touches fd s s'' := fun fd' hne =>
  (h' fd' hne).trans (h fd' hne)

theorem Touches.position (h : Touches fd s s') (hne : fd' ≠ fd) : s'.position fd' = s.position fd' := by
  rw [Node.position_eq, Node.position_eq, h fd' hne]

theorem Touches.mem (h : Touches fd s s') (hmem : fd' ∈ s'.offsets) : fd' ∈ s.offsets ∨ fd' = fd := by
  by_cases heq : fd' = fd
  · exact .inr heq
  · rw [Std.ExtTreeMap.mem_iff_isSome_getElem?, h fd' heq, ← Std.ExtTreeMap.mem_iff_isSome_getElem?] at hmem
    exact .inl hmem

theorem touches_of_eq (h : s'.offsets = s.offsets) : Touches fd s s' := fun fd' _ => by rw [h]

theorem touches_setPosition {p : Int} : Touches fd s (s.setPosition fd p) := by
  intro fd' hne
  have hcmp : compare fd fd' ≠ .eq := by simpa [Std.LawfulEqCmp.compare_eq_iff_eq] using hne.symm
  rw [Node.setPosition, Std.ExtTreeMap.getElem?_insert, if_neg hcmp]

theorem position_of_not_mem (h : fd ∉ s.offsets) : s.position fd = 0 := by
  rw [Node.position_eq, Std.ExtTreeMap.getElem?_eq_none h]
  rfl

/-- A new entry of 0 is where a missing one stands. -/
theorem position_insertIfNew (s : Node X) (n fd : Int) :
    ({ s with offsets := s.offsets.insertIfNew n 0 } : Node X).position fd = s.position fd := by
  rw [Node.position_eq, Node.position_eq]
  dsimp only
  rw [Std.ExtTreeMap.getElem?_insertIfNew]
  split
  · rename_i h
    have hnone : s.offsets[fd]? = none := by
      have heq : n = fd := by simpa using h.1
      exact Std.ExtTreeMap.getElem?_eq_none (heq ▸ h.2)
    rw [hnone]
    rfl
  · rfl

end

/-! ## One operation -/

namespace CodiusNodeFilesystem

variable [OnVFS X] {s : Node X} {fd : Int}

theorem open_cases (name : Str) (flags mode : Int) (s : Node X) :
    (CodiusNodeFilesystem.open doVFS name flags mode s).2.offsets = s.offsets ∨
      (CodiusNodeFilesystem.open doVFS name flags mode s).2.offsets =
        s.offsets.insertIfNew (CodiusNodeFilesystem.open doVFS name flags mode s).1 0 := by
  rw [CodiusNodeFilesystem.open, Wp.state_bind]
  split
  · exact .inl rfl
  · exact .inr rfl

theorem open_touches (name : Str) (flags mode : Int) (s : Node X) :
    Touches (CodiusNodeFilesystem.open doVFS name flags mode s).1 s
      (CodiusNodeFilesystem.open doVFS name flags mode s).2 := by
  rcases open_cases name flags mode s with h | h
  · exact touches_of_eq h
  · intro fd' hne
    have hcmp : compare (CodiusNodeFilesystem.open doVFS name flags mode s).1 fd' ≠ .eq := by
      simpa using hne.symm
    rw [h, Std.ExtTreeMap.getElem?_insertIfNew, if_neg fun h' => hcmp h'.1]

/-- An `open` changes no position. -/
theorem open_position (name : Str) (flags mode : Int) (s : Node X) (fd : Int) :
    (CodiusNodeFilesystem.open doVFS name flags mode s).2.position fd = s.position fd := by
  rcases open_cases name flags mode s with h | h
  · rw [Node.position, h]
    rfl
  · rw [Node.position, h]
    exact position_insertIfNew s _ fd

theorem read_touches (fd : Int) (buf : Buffer) (count : Nat) (s : Node X) :
    Touches fd s (read doVFS fd buf count s).2 := by
  have hset : Touches fd s (s.setPosition fd (s.position fd)) := touches_setPosition
  have hvfs : Touches fd s
      (doVFS (.read fd (toInt count) (s.position fd)) (s.setPosition fd (s.position fd))).2 := hset
  rw [read_replied]
  split
  · exact hvfs
  · exact hvfs.trans touches_setPosition

/-- A `read` that fails leaves an entry with the position that was there. -/
theorem read_fails {count : Nat} (hfail : (readReply fd count s).errnum ≠ 0) (buf : Buffer) (fd' : Int) :
    (read doVFS fd buf count s).2.position fd' = s.position fd' := by
  by_cases heq : fd' = fd
  · subst heq
    rw [read_replied, if_pos hfail]
    exact Node.position_setPosition
  · exact (read_touches fd buf count s).position heq

omit [OnVFS X] in
theorem lseek_touches (fd off whence : Int) (s : Node X) :
    Touches fd s (lseek fd off whence s).2 := by
  unfold lseek
  split
  · exact touches_setPosition
  · split
    · exact touches_setPosition
    · exact touches_of_eq rfl

theorem close_offsets (fd : Int) (s : Node X) : (close doVFS fd s).2.offsets = s.offsets.erase fd := rfl

theorem close_touches (fd : Int) (s : Node X) : Touches fd s (close doVFS fd s).2 := by
  intro fd' hne
  have hcmp : compare fd fd' ≠ .eq := by simpa using hne.symm
  rw [close_offsets, Std.ExtTreeMap.getElem?_erase, if_neg hcmp]

end CodiusNodeFilesystem

/-! ## Runs -/

/-- An operation, and what a `close` that fails makes of the descriptor. -/
inductive NodeOp where
  | open (name : Str) (flags mode : Int)
  | read (fd : Int) (buf : Buffer) (count : Nat)
  | lseek (fd off whence : Int)
  | close (fd : Int) (stays : Bool)

/-- The object, and the descriptors that are open. -/
structure Opened (X : Type) where
  node : Node X
  fds : List Int

/-- Before the first operation. -/
def Opened.start (x : X) : Opened X := ⟨⟨∅, x⟩, []⟩

namespace NodeOp

variable [OnVFS X]

open CodiusNodeFilesystem (doVFS)

/-- The operation, until the callback has replied. -/
def run : NodeOp → NodeM X Int
  | .open name flags mode => CodiusNodeFilesystem.open doVFS name flags mode
  | .read fd buf count => do
    let r ← CodiusNodeFilesystem.read doVFS fd buf count
    return r.1
  | .lseek fd off whence => CodiusNodeFilesystem.lseek fd off whence
  | .close fd _ => CodiusNodeFilesystem.close doVFS fd

/-- What the operation returns. -/
def result (op : NodeOp) (σ : Opened X) : Int := (op.run σ.node).1

/-- The operation's descriptor; for an `open` that is what it returns. -/
def descriptor (op : NodeOp) (σ : Opened X) : Int :=
  match op with
  | .open _ _ _ => op.result σ
  | .read fd _ _ | .lseek fd _ _ | .close fd _ => fd

/-- What the operation makes of the open descriptors. -/
def nextFds (op : NodeOp) (σ : Opened X) : List Int :=
  match op with
  | .open _ _ _ => if 0 ≤ op.result σ then op.result σ :: σ.fds else σ.fds
  | .close fd stays => if op.result σ ≠ 0 ∧ stays then σ.fds else σ.fds.filter (· ≠ fd)
  | .read _ _ _ | .lseek _ _ _ => σ.fds

def next (op : NodeOp) (σ : Opened X) : Opened X := ⟨(op.run σ.node).2, op.nextFds σ⟩

/-- The descriptor is open; a number that an `open` returns is not yet. -/
def Legal (op : NodeOp) (σ : Opened X) : Prop :=
  match op with
  | .open _ _ _ => 0 ≤ op.result σ → op.result σ ∉ σ.fds
  | .read fd _ _ | .lseek fd _ _ | .close fd _ => fd ∈ σ.fds

instance (op : NodeOp) (σ : Opened X) : Decidable (op.Legal σ) :=
  match op with
  | .open name flags mode => inferInstanceAs
      (Decidable (0 ≤ (NodeOp.open name flags mode).result σ → (NodeOp.open name flags mode).result σ ∉ σ.fds))
  | .read fd _ _ | .lseek fd _ _ | .close fd _ => inferInstanceAs (Decidable (fd ∈ σ.fds))

end NodeOp

section
variable [OnVFS X] {σ τ : Opened X} {op : NodeOp}

/-- `σ` leads to `τ` by operations on open descriptors. -/
abbrev NodeRun (σ τ : Opened X) : Prop := Run (fun op ρ => some (NodeOp.next op ρ)) NodeOp.Legal σ τ

/-- None of the operations is on `fd`. -/
abbrev NodeRunOff (fd : Int) (σ τ : Opened X) : Prop :=
  Run (fun op ρ => some (NodeOp.next op ρ)) (fun op ρ => op.Legal ρ ∧ op.descriptor ρ ≠ fd) σ τ

theorem NodeOp.touches (op : NodeOp) (σ : Opened X) : Touches (op.descriptor σ) σ.node (op.next σ).node := by
  cases op with
  | «open» name flags mode => exact CodiusNodeFilesystem.open_touches name flags mode σ.node
  | read fd buf count => exact CodiusNodeFilesystem.read_touches fd buf count σ.node
  | lseek fd off whence => exact CodiusNodeFilesystem.lseek_touches fd off whence σ.node
  | close fd stays => exact CodiusNodeFilesystem.close_touches fd σ.node

/-- The descriptors with an entry are open. What is negative is no descriptor. -/
def Tracked (σ : Opened X) : Prop := ∀ fd, 0 ≤ fd → fd ∈ σ.node.offsets → fd ∈ σ.fds

omit [OnVFS X] in
theorem Tracked.start (x : X) : Tracked (Opened.start x) := by
  intro fd _ hmem
  exact absurd hmem Std.ExtTreeMap.not_mem_empty

theorem Tracked.next (h : Tracked σ) (hlegal : op.Legal σ) : Tracked (op.next σ) := by
  intro fd h0 hmem
  have hentry := (op.touches σ).mem hmem
  cases op with
  | «open» name flags mode =>
    have hfds : fd ∈ σ.fds ∨ fd = (NodeOp.open name flags mode).result σ := hentry.imp_left (h fd h0)
    change fd ∈ if _ then _ else _
    split
    · exact List.mem_cons.2 hfds.symm
    · rename_i hneg
      rcases hfds with hfds | rfl
      · exact hfds
      · exact absurd h0 hneg
  | read fd' buf count =>
    rcases hentry with hmem | rfl
    · exact h fd h0 hmem
    · exact hlegal
  | lseek fd' off whence =>
    rcases hentry with hmem | rfl
    · exact h fd h0 hmem
    · exact hlegal
  | close fd' stays =>
    have herased : fd ∈ σ.node.offsets.erase fd' := hmem
    obtain ⟨hne, hmem⟩ := Std.ExtTreeMap.mem_erase.1 herased
    have hfds := h fd h0 hmem
    change fd ∈ if _ then _ else _
    split
    · exact hfds
    · have hne' : fd ≠ fd' := fun heq => hne (by simp [heq])
      simp [hfds, hne']

theorem NodeRun.tracked {x : X} (h : NodeRun (Opened.start x) σ) : Tracked σ := by
  refine h.invariant (Tracked.start x) fun op ρ ρ' hρ hlegal hnext => ?_
  cases hnext
  exact hρ.next hlegal

/-- Operations on other descriptors leave a position alone. -/
theorem NodeRunOff.position {fd : Int} (h : NodeRunOff fd σ τ) : τ.node.position fd = σ.node.position fd := by
  have hkeep (op : NodeOp) (ρ ρ' : Opened X) (hρ : ρ.node.position fd = σ.node.position fd)
      (hop : op.Legal ρ ∧ op.descriptor ρ ≠ fd) (hnext : some (op.next ρ) = some ρ') :
      ρ'.node.position fd = σ.node.position fd := by
    cases hnext
    exact ((op.touches ρ).position hop.2.symm).trans hρ
  exact Run.invariant (I := fun ρ => ρ.node.position fd = σ.node.position fd) h rfl hkeep

/-! ## What is requested -/

/-- The requests of a `read`, as `doVFS` gets them. -/
def readRequests (fd : Int) (count : Nat) (s : Node X) : List VFSRequest :=
  (CodiusNodeFilesystem.read (logged .noObject) fd (fun _ => 0) count ⟨s.offsets, []⟩).2.js

omit [OnVFS X] in
theorem readRequests_eq (fd : Int) (count : Nat) (s : Node X) :
    readRequests fd count s = [.read fd (toInt count) (s.position fd)] := by
  have hread := CodiusNodeFilesystem.read_eq (logged .noObject) fd (fun _ => 0) count ⟨s.offsets, []⟩
  have hlogged (request : VFSRequest) (t : Node (List VFSRequest)) :
      logged .noObject request t = (.noObject, { t with js := t.js ++ [request] }) := rfl
  have hfails : VFSReply.noObject.errnum ≠ 0 := by decide
  dsimp only at hread
  rw [hlogged, if_pos hfails] at hread
  rw [readRequests, hread]
  rfl

/-- Operations on other descriptors change no position, nor does a `read` that fails. Behind an `open` the
position is 0, whatever has become of the number before. -/
theorem positions_independent {x : X} (h : NodeRun (Opened.start x) σ) (count : Nat) :
    (∀ fd τ, NodeRunOff fd σ τ → readRequests fd count τ.node = readRequests fd count σ.node) ∧
    (∀ fd buf n fd', fd ∈ σ.fds → (CodiusNodeFilesystem.readReply fd n σ.node).errnum ≠ 0 →
      readRequests fd' count ((NodeOp.read fd buf n).next σ).node = readRequests fd' count σ.node) ∧
    (∀ name flags mode fd τ, (NodeOp.open name flags mode).Legal σ → (NodeOp.open name flags mode).result σ = fd →
      0 ≤ fd → NodeRunOff fd ((NodeOp.open name flags mode).next σ) τ →
        readRequests fd count τ.node = [.read fd (toInt count) 0]) := by
  refine ⟨fun fd τ hrun => ?_, fun fd buf n fd' _ hfail => ?_, fun name flags mode fd τ hlegal hr h0 hrun => ?_⟩
  · rw [readRequests_eq, readRequests_eq, hrun.position]
  · have hpos : ((NodeOp.read fd buf n).next σ).node.position fd' = σ.node.position fd' :=
      CodiusNodeFilesystem.read_fails hfail buf fd'
    rw [readRequests_eq, readRequests_eq, hpos]
  · have hopen : ((NodeOp.open name flags mode).next σ).node.position fd = σ.node.position fd :=
      CodiusNodeFilesystem.open_position name flags mode σ.node fd
    have hfresh : fd ∉ σ.fds := hr ▸ hlegal (hr ▸ h0)
    have hzero : σ.node.position fd = 0 := position_of_not_mem fun hmem => hfresh (h.tracked fd h0 hmem)
    rw [readRequests_eq, hrun.position, hopen, hzero]

end

/-- A callback that succeeds, with descriptor 3 for every `open`. -/
def reusing : Callback := ⟨⟨0, .undefined, isInt_zero⟩, undefined_encodable⟩

/-- Descriptor 3 opened, read from and moved. -/
def movedOpen : Opened Callback :=
  (NodeOp.lseek 3 5 SEEK_CUR).next ((NodeOp.read 3 (fun _ => 0) 16).next
    ((NodeOp.open (str "/a") 0 0).next (Opened.start reusing)))

/-- It is at 14 when it is closed, and at 0 when "/b" gets its number. -/
theorem positions_independent_reused :
    NodeRun (Opened.start reusing) ((NodeOp.close 3 false).next movedOpen) ∧
      readRequests 3 16 movedOpen.node = [.read 3 16 14] ∧
      readRequests 3 16 ((NodeOp.open (str "/b") 0 0).next ((NodeOp.close 3 false).next movedOpen)).node =
        [.read 3 16 0] := by
  have hopened : NodeRun (Opened.start reusing) ((NodeOp.open (str "/a") 0 0).next (Opened.start reusing)) :=
    .step .start (by decide) rfl
  have hmoved : NodeRun (Opened.start reusing) movedOpen :=
    .step (.step hopened (by decide +kernel) rfl) (by decide +kernel) rfl
  have hclosed : NodeRun (Opened.start reusing) ((NodeOp.close 3 false).next movedOpen) :=
    .step hmoved (by decide +kernel) rfl
  obtain ⟨-, -, hfresh⟩ := positions_independent hclosed 16
  refine ⟨hclosed, ?_, ?_⟩
  · rw [readRequests_eq]
    decide +kernel
  · exact hfresh (str "/b") 0 0 3 _ (by decide +kernel) (by decide +kernel) (by decide) .start

end CodiusSandbox
