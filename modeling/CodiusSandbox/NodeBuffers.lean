import CodiusSandbox.DirentLengths
import CodiusSandbox.HostMemory
/-!
# The caller's buffer (`node-filesystem.cpp:67-85, 141-164`)

| operation  | what it does with `count` | bytes stored                     | answer              |
|------------|---------------------------|----------------------------------|---------------------|
| `getdents` | nothing                   | all records                      | their length        |
| `read`     | an `int` for `WriteUtf8`  | the characters that fit          | `Utf8Length`        |

The handlers in `vfs.cpp` make a vector of `args[2]` bytes and copy as many bytes of it as the answer says.
So a reply that fits is handled right, and a longer one reaches beyond the vector
(`getdents_keeps_iff`, `read_keeps_iff`).
-/
namespace CodiusSandbox

open Wp

/-! ## Bytes in a buffer -/

theorem putAt_get {buf : Buffer} {bytes : Str} {i : Nat} (h : i < bytes.length) : buf.putAt 0 bytes i = bytes[i] := by
  simp [Buffer.putAt, List.getD_eq_getElem?_getD, h]

theorem length_le_of_putAt {a b : Str} (h : ∀ buf : Buffer, buf.putAt 0 a = buf.putAt 0 b) : a.length ≤ b.length := by
  refine Nat.le_of_not_lt fun hlt => ?_
  have hbyte (v : UInt8) : a[b.length] = v := by
    have hat := congrFun (h fun _ => v) b.length
    rwa [putAt_get hlt, putAt_of_le (by omega)] at hat
  have h01 : (0 : UInt8) = 1 := (hbyte 0).symm.trans (hbyte 1)
  exact absurd h01 (by decide)

/-- What was stored is known from what it does to every buffer. -/
theorem putAt_injective {a b : Str} (h : ∀ buf : Buffer, buf.putAt 0 a = buf.putAt 0 b) : a = b := by
  have hlen : a.length = b.length :=
    Nat.le_antisymm (length_le_of_putAt h) (length_le_of_putAt fun buf => (h buf).symm)
  apply List.ext_getElem hlen
  intro i ha hb
  have hat := congrFun (h fun _ => 0) i
  rwa [putAt_get ha, putAt_get hb] at hat

/-! ## What the handlers copy -/

section
variable (F W : Type) [Filesystem F W]

/-- Where a call `id` for `count` bytes gets the answer `r`, from whatever filesystem, at most `bound`
bytes of the buffer go to the child. -/
def CopiesAtMost (id : Word) (count : Nat) (r : Int × Buffer) (bound : SyscallCall → Nat) : Prop :=
  ∀ (σ : Tracer F W) (call : SyscallCall) (x : Exchange F W), call.id = id → askedBytes call = count →
    σ.exchange call = some x → (x.result, x.buffer) = r →
      ∃ n ≤ bound call, Writes (handleSyscall call) σ (call.args 1) n x.buffer (call.answer (toWord (x.returned call)))

end

section
variable {F W : Type} [Filesystem F W] {result : Int} {buf : Buffer} {count : Nat}

theorem getdents_copies (hint : IsInt result) (h0 : 0 ≤ result) (hle : result ≤ count) :
    CopiesAtMost F W SYS_getdents count (result, buf) fun call => (call.args 2).toNat := by
  intro σ call x hid hasked hx hr
  have hresult : x.result = result := congrArg Prod.fst hr
  have hlen := length_getdents hid (hresult ▸ hint) (hresult ▸ h0)
  unfold askedBytes at hasked
  rw [if_pos hid] at hasked
  refine ⟨x.length call, ?_, exchange_run hx fun _ hempty => ?_⟩
  · dsimp only
    rw [hlen, hresult]
    omega
  · rw [hempty] at hasked
    omega

theorem read_copies {stored : Nat} (heq : result = stored) (hle : result ≤ count) :
    CopiesAtMost F W SYS_read count (result, buf) fun _ => stored := by
  intro σ call x hid hasked hx hr
  have hresult : x.result = result := congrArg Prod.fst hr
  have hfits := fits_lt (exchange_read hx hid).2
  have hdents : call.id ≠ SYS_getdents := by rw [hid]; decide
  unfold askedBytes at hasked
  rw [if_neg hdents] at hasked
  have hlen := length_read hid (x := x) (by omega) (by omega)
  refine ⟨x.length call, ?_, exchange_run hx fun _ hempty => ?_⟩
  · dsimp only
    omega
  · omega

end

/-! ## `getdents` -/

/-- The records of the names. -/
def dirRecords (names : List Str) : List Str := direntRecords 256 1 (names.map fun name => (name, DT_REG))

/-- The bytes of the records of the names. -/
def direntsLength : List Str → Nat
  | [] => 0
  | name :: names => reclenOf name.length + direntsLength names

theorem length_direntRecords (inode idx : Int) (names : List Str) :
    (direntRecords inode idx (names.map fun name => (name, DT_REG))).flatten.length = direntsLength names := by
  induction names generalizing inode idx with
  | nil => rfl
  | cons name names ih =>
    rw [List.map_cons, direntRecords_cons, List.flatten_cons, List.length_append, length_direntRecord, ih, direntsLength]

theorem length_dirRecords (names : List Str) : (dirRecords names).flatten.length = direntsLength names :=
  length_direntRecords 256 1 names

/-- Not even the first record fits. -/
def TooSmall (names : List Str) (count : Nat) : Prop := ∃ first ∈ (dirRecords names).head?, count < first.length

theorem TooSmall.lt {names : List Str} {count : Nat} (h : TooSmall names count) : count < direntsLength names := by
  obtain ⟨first, hfirst, hlt⟩ := h
  obtain ⟨rest, hrest⟩ := List.head?_eq_some_iff.1 hfirst
  rw [← length_dirRecords, hrest, List.flatten_cons, List.length_append]
  omega

/-- The first records as far as they fit and their length, or a negative number. `run` gets the buffer. -/
structure KeepsCount (names : List Str) (count : Nat) (run : Buffer → Except AppendFault (Int × Buffer)) : Prop where
  fails : TooSmall names count → ∃ e < 0, ∀ dirs, run dirs = .ok (e, dirs)
  stores : ¬ TooSmall names count → ∃ k, ((dirRecords names).take k).flatten.length ≤ count ∧ ∀ dirs,
    run dirs = .ok ((((dirRecords names).take k).flatten.length : Int), dirs.putAt 0 ((dirRecords names).take k).flatten)

section
variable {X : Type} {doVFS : VFSRequest → NodeM X VFSReply} {fd : Int} {s : Node X} {count : Nat}

/-- The names of the reply. -/
def repliedNames (doVFS : VFSRequest → NodeM X VFSReply) (fd : Int) (s : Node X) : List Str :=
  (doVFS (.getdents fd) s).1.result.names

theorem getdents_answer (hok : (doVFS (.getdents fd) s).1.errnum = 0) (dirs : Buffer) :
    (CodiusNodeFilesystem.getdents doVFS fd dirs s).1 =
      (direntData (repliedNames doVFS fd s)).map fun data => (toInt data.length, dirs.putAt 0 data) := by
  rw [CodiusNodeFilesystem.getdents, Wp.state_bind, if_neg (not_not.2 hok)]
  rfl

/-- The records of names that have some. -/
theorem getdents_stores (hok : (doVFS (.getdents fd) s).1.errnum = 0)
    (hn : ∀ name ∈ repliedNames doVFS fd s, name.length ≤ 65508) (dirs : Buffer) :
    (CodiusNodeFilesystem.getdents doVFS fd dirs s).1 =
      .ok (toInt (direntsLength (repliedNames doVFS fd s)), dirs.putAt 0 (dirRecords (repliedNames doVFS fd s)).flatten) := by
  have hdata : direntData (repliedNames doVFS fd s) = .ok (dirRecords (repliedNames doVFS fd s)).flatten :=
    direntData_records hn
  rw [getdents_answer hok, hdata, ← length_dirRecords]
  rfl

/-- An answer needs a record for each name. -/
theorem names_of_answer (hok : (doVFS (.getdents fd) s).1.errnum = 0) {dirs : Buffer} {r : Int × Buffer}
    (hr : (CodiusNodeFilesystem.getdents doVFS fd dirs s).1 = .ok r) :
    ∀ name ∈ repliedNames doVFS fd s, name.length ≤ 65508 := by
  rw [getdents_answer hok] at hr
  refine direntData_ok_iff.1 ?_
  cases hdata : direntData (repliedNames doVFS fd s) with
  | ok data => exact ⟨data, rfl⟩
  | error fault =>
    rw [hdata] at hr
    cases hr

theorem not_tooSmall_of_unchanged {names : List Str} (h : ∀ dirs : Buffer, dirs.putAt 0 (dirRecords names).flatten = dirs) :
    ¬ TooSmall names count := by
  intro hsmall
  have hnil : (dirRecords names).flatten = [] := putAt_injective fun buf => h buf
  have hlen := length_dirRecords names
  rw [hnil, List.length_nil] at hlen
  have hlt := hsmall.lt
  omega

/-- A directory of short names whose records fit. -/
def DirFits (names : List Str) (count : Nat) : Prop :=
  (∀ name ∈ names, name.length ≤ 65508) ∧ direntsLength names ≤ count ∧ direntsLength names < 2 ^ 31

theorem DirFits.isInt {names : List Str} (h : DirFits names count) : IsInt (direntsLength names) := by
  have hlt := h.2.2
  exact ⟨by omega, by omega⟩

theorem dirFits_of_keepsCount (hok : (doVFS (.getdents fd) s).1.errnum = 0)
    (h : KeepsCount (repliedNames doVFS fd s) count fun dirs => (CodiusNodeFilesystem.getdents doVFS fd dirs s).1) :
    DirFits (repliedNames doVFS fd s) count := by
  by_cases hsmall : TooSmall (repliedNames doVFS fd s) count
  · obtain ⟨e, _, hrun⟩ := h.fails hsmall
    have hn := names_of_answer hok (hrun fun _ => 0)
    have hsame (dirs : Buffer) : dirs.putAt 0 (dirRecords (repliedNames doVFS fd s)).flatten = dirs := by
      have hdirs := hrun dirs
      rw [getdents_stores hok hn] at hdirs
      exact congrArg Prod.snd (Except.ok.inj hdirs)
    exact absurd hsmall (not_tooSmall_of_unchanged hsame)
  · obtain ⟨k, hle, hrun⟩ := h.stores hsmall
    have hn := names_of_answer hok (hrun fun _ => 0)
    have hpair (dirs : Buffer) := Except.ok.inj ((getdents_stores hok hn dirs).symm.trans (hrun dirs))
    have hall : (dirRecords (repliedNames doVFS fd s)).flatten = ((dirRecords (repliedNames doVFS fd s)).take k).flatten :=
      putAt_injective fun dirs => congrArg Prod.snd (hpair dirs)
    have hresult := congrArg Prod.fst (hpair fun _ => 0)
    dsimp only at hresult
    rw [← hall, length_dirRecords] at hresult hle
    have hlt := (isInt_toInt (direntsLength (repliedNames doVFS fd s))).2
    rw [hresult] at hlt
    exact ⟨hn, hle, by omega⟩

theorem keepsCount_of_dirFits (hok : (doVFS (.getdents fd) s).1.errnum = 0)
    (h : DirFits (repliedNames doVFS fd s) count) :
    KeepsCount (repliedNames doVFS fd s) count fun dirs => (CodiusNodeFilesystem.getdents doVFS fd dirs s).1 where
  fails := fun hsmall => absurd hsmall.lt (Nat.not_lt.2 h.2.1)
  stores := fun _ => by
    refine ⟨(dirRecords (repliedNames doVFS fd s)).length, ?_, fun dirs => ?_⟩
    · rw [List.take_length, length_dirRecords]
      exact h.2.1
    · rw [List.take_length, getdents_stores hok h.1, length_dirRecords, toInt_of_isInt h.isInt]

variable {F W : Type} [Filesystem F W]

/-- The caller's buffer and the child's are kept to. -/
def GetdentsKeeps (F W : Type) [Filesystem F W] (names : List Str) (count : Nat)
    (run : Buffer → Except AppendFault (Int × Buffer)) : Prop :=
  KeepsCount names count run ∧ ∀ dirs r, run dirs = .ok r →
    CopiesAtMost F W SYS_getdents count r fun call => (call.args 2).toNat

/-- `getdents` is right where all it stores fits, and its length is an `int`. -/
theorem getdents_keeps_iff (hok : (doVFS (.getdents fd) s).1.errnum = 0) :
    GetdentsKeeps F W (repliedNames doVFS fd s) count (fun dirs => (CodiusNodeFilesystem.getdents doVFS fd dirs s).1) ↔
      DirFits (repliedNames doVFS fd s) count := by
  constructor
  · intro h
    exact dirFits_of_keepsCount hok h.1
  · intro h
    refine ⟨keepsCount_of_dirFits hok h, fun dirs r hr => ?_⟩
    have hle := h.2.1
    have hanswer := Except.ok.inj (hr.symm.trans (getdents_stores hok h.1 dirs))
    rw [toInt_of_isInt h.isInt] at hanswer
    rw [hanswer]
    exact getdents_copies h.isInt (by omega) (by omega)

end

/-- A directory with the file "a". -/
def listing : VFSReply := ⟨0, { Value.undefined with elements := [[[97]]] }, isInt_zero⟩

theorem listing_encodable : ∃ data, direntData listing.result.names = .ok data := by
  refine direntData_ok_iff.2 ?_
  decide

def lister : Callback := ⟨listing, listing_encodable⟩

/-- `doVFS` with that reply. -/
def replyListing : VFSRequest → NodeM Unit VFSReply := fun _ => pure listing

/-- `getdents` of the file behind `open ("/a")` into 8 bytes at 64. -/
def getdentsEight : SyscallCall := .of SYS_getdents [4096, 64, 8]

/-- The record of "a" has 24 bytes: they are stored in a vector of 8, and 24 bytes from it are copied. -/
theorem getdents_overruns :
    (∀ fd s, ¬ KeepsCount listing.result.names 8 fun dirs => (CodiusNodeFilesystem.getdents replyListing fd dirs s).1) ∧
    (∀ fd s dirs, ∃ data, data.length = 24 ∧
      (CodiusNodeFilesystem.getdents replyListing fd dirs s).1 = .ok (24, dirs.putAt 0 data)) ∧
    ∃ σ : Tracer (CodiusNodeFilesystem Callback) (Node Callback), Reachable σ ∧
      (σ.exchange getdentsEight).map (fun x => x.length getdentsEight) = some 24 ∧
      σ.mem 80 = some 0 ∧ Returns (handleSyscall getdentsEight) (fun _ t => t.mem 80 = some 24) σ := by
  have hok (fd : Int) (s : Node Unit) : (replyListing (.getdents fd) s).1.errnum = 0 := rfl
  have hnames (fd : Int) (s : Node Unit) : repliedNames replyListing fd s = listing.result.names := rfl
  have hshort : ∀ name ∈ listing.result.names, name.length ≤ 65508 := by decide
  have hlength : direntsLength listing.result.names = 24 := by decide
  refine ⟨fun fd s h => ?_, fun fd s dirs => ?_, ?_⟩
  · rw [← hnames fd s] at h
    have hfits := (dirFits_of_keepsCount (hok fd s) h).2.1
    rw [hnames, hlength] at hfits
    exact absurd hfits (by decide)
  · have hstores := getdents_stores (hok fd s) (hnames fd s ▸ hshort) dirs
    rw [hnames, hlength] at hstores
    exact ⟨_, by rw [length_dirRecords, hlength], hstores⟩
  · exact (nodeChild_reachable (str "/a") lister).after (.of SYS_open [0]) (by decide +kernel)

/-- In 24 bytes the record has room. -/
theorem getdents_keeps_listing :
    GetdentsKeeps (CodiusNodeFilesystem Callback) (Node Callback) (repliedNames replyListing 3 ⟨∅, ()⟩) 24
      (fun dirs => (CodiusNodeFilesystem.getdents replyListing 3 dirs ⟨∅, ()⟩).1) ↔
        DirFits (repliedNames replyListing 3 ⟨∅, ()⟩) 24 :=
  getdents_keeps_iff rfl

/-! ## `read` -/

open CodiusNodeFilesystem (readReply)

theorem length_writeUtf8_le (text : List Str) (capacity : Nat) : (writeUtf8 text capacity).length ≤ capacity := by
  induction text generalizing capacity with
  | nil => exact Nat.zero_le _
  | cons c text ih =>
    unfold writeUtf8
    split
    · have hrest := ih (capacity - c.length)
      rw [List.length_append]
      omega
    · exact Nat.zero_le _

theorem writeUtf8_fits {text : List Str} {capacity : Nat} (h : utf8Length text ≤ capacity) :
    writeUtf8 text capacity = text.flatten := by
  induction text generalizing capacity with
  | nil => rfl
  | cons c text ih =>
    rw [utf8Length, List.flatten_cons, List.length_append] at h
    have hrest : utf8Length text ≤ capacity - c.length := by
      unfold utf8Length
      omega
    rw [writeUtf8, if_pos (by omega), ih hrest, List.flatten_cons]

section
variable {X : Type} [OnVFS X] {F W : Type} [Filesystem F W] {fd : Int} {s : Node X} {count : Nat}

/-- The bytes stored are at most `count`. Their number is the answer, what the position goes on by, and
all the handler copies. -/
def ReadKeeps (F W : Type) [Filesystem F W] (fd : Int) (s : Node X) (count : Nat)
    (run : Buffer → (Int × Buffer) × Node X) : Prop :=
  ∃ stored : Str, stored.length ≤ count ∧ ∀ buf, (run buf).1 = ((stored.length : Int), buf.putAt 0 stored) ∧
    (run buf).2.position fd = s.position fd + stored.length ∧
      CopiesAtMost F W SYS_read count (run buf).1 fun _ => stored.length

theorem read_answer (hok : (readReply fd count s).errnum = 0) (buf : Buffer) :
    (CodiusNodeFilesystem.read CodiusNodeFilesystem.doVFS fd buf count s).1 =
        ((utf8Length (readReply fd count s).result.text : Int),
          buf.putAt 0 (writeUtf8 (readReply fd count s).result.text
            (utf8Capacity (readReply fd count s).result.text count))) ∧
      (CodiusNodeFilesystem.read CodiusNodeFilesystem.doVFS fd buf count s).2.position fd =
        toInt (s.position fd + utf8Length (readReply fd count s).result.text) := by
  rw [CodiusNodeFilesystem.read_replied, if_neg (not_not.2 hok)]
  exact ⟨rfl, Node.position_setPosition⟩

/-- The text is no longer than what was asked for, and than what `WriteUtf8` makes of that. -/
def TextFits (text : List Str) (count : Nat) : Prop := utf8Length text ≤ count ∧ utf8Length text ≤ utf8Capacity text count

/-- `read` is right where the reply fits, and the position stays an `int`. -/
theorem read_keeps_iff (hok : (readReply fd count s).errnum = 0) :
    ReadKeeps F W fd s count (fun buf => CodiusNodeFilesystem.read CodiusNodeFilesystem.doVFS fd buf count s) ↔
      TextFits (readReply fd count s).result.text count ∧
        IsInt (s.position fd + utf8Length (readReply fd count s).result.text) := by
  constructor
  · rintro ⟨stored, hle, hrun⟩
    have hpair (buf : Buffer) := (read_answer hok buf).1.symm.trans (hrun buf).1
    have hresult := congrArg Prod.fst (hpair fun _ => 0)
    have hstored : writeUtf8 (readReply fd count s).result.text
        (utf8Capacity (readReply fd count s).result.text count) = stored :=
      putAt_injective fun buf => congrArg Prod.snd (hpair buf)
    have hroom := length_writeUtf8_le (readReply fd count s).result.text
      (utf8Capacity (readReply fd count s).result.text count)
    have hpos := (read_answer hok fun _ => 0).2.symm.trans (hrun fun _ => 0).2.1
    dsimp only at hresult
    rw [← hresult] at hpos
    rw [hstored] at hroom
    exact ⟨⟨by omega, by omega⟩, hpos ▸ isInt_toInt _⟩
  · rintro ⟨⟨hle, hroom⟩, hint⟩
    refine ⟨(readReply fd count s).result.text.flatten, hle, fun buf => ?_⟩
    obtain ⟨hans, hpos⟩ := read_answer hok buf
    rw [writeUtf8_fits hroom] at hans
    rw [toInt_of_isInt hint] at hpos
    rw [hans]
    exact ⟨rfl, hpos, read_copies rfl (Int.ofNat_le.2 hle)⟩

end

/-- A callback that reads a character of two bytes from every file. -/
def accented : Callback := ⟨⟨0, { Value.undefined with text := [[195, 169]] }, isInt_zero⟩, undefined_encodable⟩

/-- Node with that callback and nothing open. -/
def accentedNode : Node Callback := ⟨∅, accented⟩

/-- `read` of one byte from the file behind `open ("/a")`. -/
def readByte : SyscallCall := .of SYS_read [4096, 64, 1]

/-- Asked for one byte, `read` stores none and answers 2, and two bytes of a vector of one are copied. -/
theorem read_overruns :
    (∀ fd, ¬ ReadKeeps (CodiusNodeFilesystem Callback) (Node Callback) fd accentedNode 1 fun buf =>
      CodiusNodeFilesystem.read CodiusNodeFilesystem.doVFS fd buf 1 accentedNode) ∧
    (∀ fd buf, (CodiusNodeFilesystem.read CodiusNodeFilesystem.doVFS fd buf 1 accentedNode).1 = (2, buf.putAt 0 [])) ∧
    ∃ σ : Tracer (CodiusNodeFilesystem Callback) (Node Callback), Reachable σ ∧
      (σ.exchange readByte).map (fun x => x.length readByte) = some 2 := by
  have hreply (fd : Int) : readReply fd 1 accentedNode = accented.reply := rfl
  have hanswer (fd : Int) (buf : Buffer) :
      (CodiusNodeFilesystem.read CodiusNodeFilesystem.doVFS fd buf 1 accentedNode).1 = (2, buf.putAt 0 []) := by
    have hok : (readReply fd 1 accentedNode).errnum = 0 := rfl
    have hread := (read_answer hok buf).1
    rw [hreply] at hread
    exact hread
  refine ⟨fun fd h => ?_, hanswer, ?_⟩
  · obtain ⟨stored, hle, hrun⟩ := h
    have hresult := congrArg Prod.fst ((hrun fun _ => 0).1.symm.trans (hanswer fd fun _ => 0))
    dsimp only at hresult
    omega
  · exact (nodeChild_reachable (str "/a") accented).after (.of SYS_open [0]) (by decide +kernel)

/-- Two bytes at the start of a file. -/
theorem read_keeps_accented :
    ReadKeeps (CodiusNodeFilesystem Callback) (Node Callback) 3 accentedNode 2 (fun buf =>
        CodiusNodeFilesystem.read CodiusNodeFilesystem.doVFS 3 buf 2 accentedNode) ↔
      TextFits (readReply 3 2 accentedNode).result.text 2 ∧
        IsInt (accentedNode.position 3 + utf8Length (readReply 3 2 accentedNode).result.text) :=
  read_keeps_iff rfl

end CodiusSandbox
