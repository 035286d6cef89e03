import CodiusSandbox.JsonUnicode
/-!
# The string buffer of `json.c`

| here                           | there                                                                        |
|--------------------------------|------------------------------------------------------------------------------|
| `SB`                           | `SB`: the bytes from `start` to `cur`, and how many are allocated             |
| `SB.room`                      | `end - cur`                                                                  |
| `sbNeed`, `sbGrow`, …          | `sb_need`, `sb_grow`, … (`json.c:56-110`)                                     |
| `SB.push`                      | `*b++ = c`, which faults behind what is allocated                             |

Everything that is written comes behind what was there, and the buffer grows before it is full
(`Appends`). A length is an `int`, so that is true of pieces shorter than 2 GiB alone (`sbPuts_all_iff`).
-/
namespace CodiusSandbox.JsonText

structure SB where
  bytes : Str
  /-- What `malloc` and `realloc` were asked for: `end - start + 1`. -/
  size : Nat
deriving DecidableEq, Repr

def SB.room (sb : SB) : Nat := sb.size - 1 - sb.bytes.length

def SB.push (c : UInt8) (sb : SB) : Except ScanFault SB :=
  if sb.bytes.length < sb.size then .ok { sb with bytes := sb.bytes ++ [c] }
  else .error .overflow

/-- Several bytes, one behind the other. -/
def SB.pushAll : Str → SB → Except ScanFault SB
  | [], sb => .ok sb
  | c :: bytes, sb => do SB.pushAll bytes (← sb.push c)

def sbInit : SB := ⟨[], 17⟩

/-- The loop of `sb_grow`. -/
def sbGrowLoop (least : Nat) : Nat → Nat → Except ScanFault Nat
  | 0, _ => .error .fuel
  | fuel + 1, alloc =>
    let alloc := alloc * 2
    if alloc < least then sbGrowLoop least fuel alloc
    else .ok alloc

def sbGrow (sb : SB) (need : Nat) : Except ScanFault SB := do
  let length := sb.bytes.length
  let alloc ← sbGrowLoop (length + need) (length + need + 1) (sb.size - 1)
  return { sb with size := alloc + 1 }

def sbNeed (sb : SB) (need : Nat) : Except ScanFault SB :=
  if sb.room < need then sbGrow sb need
  else .ok sb

/-- A negative `count` leaves the buffer as it is, and is the largest of sizes for `memcpy`. -/
def sbPut (sb : SB) (bytes : Str) (count : Int) : Except ScanFault SB :=
  if count < 0 then .error .overflow
  else do
    let sb ← sbNeed sb count.toNat
    sb.pushAll (bytes.take count.toNat)

def sbPutc (sb : SB) (c : UInt8) : Except ScanFault SB :=
  (if sb.room = 0 then sbGrow sb 1 else .ok sb) >>= SB.push c

def sbPuts (sb : SB) (s : Str) : Except ScanFault SB := sbPut sb s (toInt s.length)

/-- The NUL is written behind the bytes, and none may be among them. -/
def sbFinish (sb : SB) : Except ScanFault Str :=
  if sb.bytes.length < sb.size then
    if (sb.bytes ++ [0]).takeWhile (· ≠ 0) = sb.bytes then .ok sb.bytes
    else .error .assertion
  else .error .overflow

/-! ## Room -/

/-- `cur` is not behind `end`, and the buffer can be doubled. -/
structure SB.Valid (sb : SB) : Prop where
  inside : sb.bytes.length < sb.size
  more : 1 < sb.size

theorem valid_sbInit : sbInit.Valid := ⟨by decide, by decide⟩

theorem sbGrowLoop_run {least fuel : Nat} (alloc : Nat) (ha : 0 < alloc) (hf : least < alloc + fuel) (hne : fuel ≠ 0) :
    ∃ size, sbGrowLoop least fuel alloc = .ok size ∧ least ≤ size ∧ alloc ≤ size := by
  induction fuel generalizing alloc with
  | zero => exact absurd rfl hne
  | succ fuel ih =>
    rw [sbGrowLoop]
    by_cases hlt : alloc * 2 < least
    · obtain ⟨size, hrun, hleast, halloc⟩ := ih (alloc * 2) (by omega) (by omega) (by omega)
      exact ⟨size, by rw [if_pos hlt, hrun], hleast, by omega⟩
    · exact ⟨alloc * 2, by rw [if_neg hlt], by omega, by omega⟩

theorem sbGrow_run {sb : SB} (h : sb.Valid) (need : Nat) : ∃ size, sbGrow sb need = .ok { sb with size := size } ∧
    sb.bytes.length + need < size ∧ sb.size ≤ size := by
  have hmore := h.more
  obtain ⟨alloc, hrun, hleast, halloc⟩ : ∃ alloc, sbGrowLoop (sb.bytes.length + need) (sb.bytes.length + need + 1)
      (sb.size - 1) = .ok alloc ∧ sb.bytes.length + need ≤ alloc ∧ sb.size - 1 ≤ alloc :=
    sbGrowLoop_run (sb.size - 1) (by omega) (by omega) (by omega)
  refine ⟨alloc + 1, ?_, by omega, by omega⟩
  rw [sbGrow, hrun]
  rfl

theorem sbNeed_run {sb : SB} (h : sb.Valid) (need : Nat) : ∃ size, sbNeed sb need = .ok { sb with size := size } ∧
    sb.bytes.length + need < size ∧ sb.size ≤ size := by
  rw [sbNeed]
  by_cases hroom : sb.room < need
  · rw [if_pos hroom]
    exact sbGrow_run h need
  · have hinside := h.inside
    rw [SB.room] at hroom
    exact ⟨sb.size, if_neg hroom, by omega, Nat.le_refl _⟩

theorem push_ok {sb : SB} (h : sb.bytes.length < sb.size) (c : UInt8) :
    sb.push c = .ok { sb with bytes := sb.bytes ++ [c] } := if_pos h

theorem pushAll_ok {sb : SB} {bytes : Str} (h : sb.bytes.length + bytes.length ≤ sb.size) :
    sb.pushAll bytes = .ok { sb with bytes := sb.bytes ++ bytes } := by
  induction bytes generalizing sb with
  | nil => rw [SB.pushAll, List.append_nil]
  | cons c bytes ih =>
    rw [List.length_cons] at h
    rw [SB.pushAll, push_ok (by omega)]
    have hroom : (SB.mk (sb.bytes ++ [c]) sb.size).bytes.length + bytes.length ≤ sb.size := by
      dsimp only
      rw [List.length_append, List.length_singleton]
      omega
    have hrun := ih hroom
    rw [List.append_assoc] at hrun
    exact hrun

/-! ## Appending -/

/-- On a valid buffer `f` puts `text` behind what is there, in a valid buffer. -/
def Appends (f : SB → Except ScanFault SB) (text : Str) : Prop :=
  ∀ sb : SB, sb.Valid → ∃ sb', f sb = .ok sb' ∧ sb'.bytes = sb.bytes ++ text ∧ sb'.Valid

theorem Appends.nil : Appends .ok [] := fun sb h => ⟨sb, rfl, by simp, h⟩

theorem Appends.bind {f g : SB → Except ScanFault SB} {a b : Str} (hf : Appends f a) (hg : Appends g b) :
    Appends (fun sb => f sb >>= g) (a ++ b) := by
  intro sb h
  obtain ⟨sb₁, hrun₁, hbytes₁, h₁⟩ := hf sb h
  obtain ⟨sb₂, hrun₂, hbytes₂, h₂⟩ := hg sb₁ h₁
  refine ⟨sb₂, ?_, by rw [hbytes₂, hbytes₁, List.append_assoc], h₂⟩
  dsimp only
  rw [hrun₁]
  exact hrun₂

theorem sbPut_run {sb : SB} (h : sb.Valid) (bytes : Str) {count : Int} (hc : 0 ≤ count) : ∃ size,
    sbNeed sb count.toNat = .ok { sb with size := size } ∧
    sbPut sb bytes count = .ok ⟨sb.bytes ++ bytes.take count.toNat, size⟩ ∧
    (SB.mk (sb.bytes ++ bytes.take count.toNat) size).Valid := by
  obtain ⟨size, hneed, hroom, hsize⟩ := sbNeed_run h count.toNat
  have htake := List.length_take_le count.toNat bytes
  refine ⟨size, hneed, ?_, ?_, Nat.lt_of_lt_of_le h.more hsize⟩
  · rw [sbPut, if_neg (Int.not_lt.2 hc), hneed]
    exact pushAll_ok (by dsimp only; omega)
  · dsimp only
    rw [List.length_append]
    omega

/-- A string whose length is an `int`. -/
def Short (s : Str) : Prop := s.length < 2 ^ 31

theorem Short.toInt {s : Str} (h : Short s) : toInt s.length = s.length := by
  unfold Short at h
  exact toInt_of_isInt ⟨by omega, by omega⟩

theorem appends_sbPuts {s : Str} (hs : Short s) : Appends (fun sb => sbPuts sb s) s := by
  intro sb h
  obtain ⟨size, -, hrun, hvalid⟩ := sbPut_run h s (Int.natCast_nonneg s.length)
  rw [Int.toNat_natCast, List.take_length] at hrun hvalid
  refine ⟨_, ?_, rfl, hvalid⟩
  dsimp only
  rw [sbPuts, hs.toInt, hrun]

theorem appends_sbPutc (c : UInt8) : Appends (fun sb => sbPutc sb c) [c] := by
  intro sb h
  obtain ⟨size, hrun, hroom, hsize⟩ : ∃ size, (if sb.room = 0 then sbGrow sb 1 else .ok sb) =
      .ok { sb with size := size } ∧ sb.bytes.length + 1 < size ∧ sb.size ≤ size := by
    by_cases hroom : sb.room = 0
    · rw [if_pos hroom]
      exact sbGrow_run h 1
    · rw [if_neg hroom]
      rw [SB.room] at hroom
      exact ⟨sb.size, rfl, by omega, Nat.le_refl _⟩
  refine ⟨{ bytes := sb.bytes ++ [c], size := size }, ?_, rfl, ?_, Nat.lt_of_lt_of_le h.more hsize⟩
  · dsimp only
    rw [sbPutc, hrun]
    exact push_ok (by dsimp only; omega) c
  · simpa using hroom

/-- `sb_finish` gives the bytes, when there is no NUL in them. -/
theorem sbFinish_run {sb : SB} (h : sb.Valid) (h0 : 0 ∉ sb.bytes) : sbFinish sb = .ok sb.bytes := by
  have htake : (sb.bytes ++ [0]).takeWhile (· ≠ 0) = sb.bytes := by
    rw [List.takeWhile_append_of_pos (all_ne_zero h0), List.takeWhile_cons_of_neg (by simp), List.append_nil]
  rw [sbFinish, if_pos h.inside, if_pos htake]

/-! ## How much is allocated -/

theorem sbGrowLoop_le {least fuel alloc size : Nat} (hlt : alloc < least) (hrun : sbGrowLoop least fuel alloc = .ok size) :
    size < 2 * least := by
  induction fuel generalizing alloc with
  | zero => cases hrun
  | succ fuel ih =>
    rw [sbGrowLoop] at hrun
    by_cases hmore : alloc * 2 < least
    · rw [if_pos hmore] at hrun
      exact ih hmore hrun
    · rw [if_neg hmore] at hrun
      cases hrun
      omega

/-- At most twice the bytes that were written are allocated, besides the first sixteen. -/
def SB.Snug (sb : SB) : Prop := sb.size - 1 ≤ max 16 (2 * sb.bytes.length)

theorem snug_sbInit : sbInit.Snug := by
  unfold SB.Snug
  decide

theorem snug_sbNeed {sb sb' : SB} {need : Nat} (h : sb.Valid) (hsnug : sb.Snug) (hrun : sbNeed sb need = .ok sb') :
    sb'.bytes = sb.bytes ∧ sb'.size - 1 ≤ max 16 (2 * (sb.bytes.length + need)) := by
  have hmore := h.more
  rw [SB.Snug] at hsnug
  rw [sbNeed] at hrun
  by_cases hroom : sb.room < need
  · rw [if_pos hroom, sbGrow] at hrun
    rw [SB.room] at hroom
    cases hloop : sbGrowLoop (sb.bytes.length + need) (sb.bytes.length + need + 1) (sb.size - 1) with
    | error e =>
      rw [hloop] at hrun
      cases hrun
    | ok alloc =>
      rw [hloop] at hrun
      cases hrun
      have hle := sbGrowLoop_le (by omega) hloop
      refine ⟨rfl, ?_⟩
      dsimp only
      omega
  · rw [if_neg hroom] at hrun
    cases hrun
    exact ⟨rfl, by omega⟩

theorem snug_sbPuts {sb sb' : SB} {s : Str} (hs : Short s) (h : sb.Valid) (hsnug : sb.Snug)
    (hrun : sbPuts sb s = .ok sb') : sb'.Snug := by
  obtain ⟨size, hneed, hput, -⟩ := sbPut_run h s (Int.natCast_nonneg s.length)
  rw [Int.toNat_natCast, List.take_length] at hput
  rw [Int.toNat_natCast] at hneed
  obtain ⟨-, hle⟩ := snug_sbNeed h hsnug hneed
  rw [sbPuts, hs.toInt, hput] at hrun
  obtain rfl := Except.ok.inj hrun
  rw [SB.Snug, List.length_append]
  exact hle

theorem sbPuts_pieces {pieces : List Str} (hshort : ∀ s ∈ pieces, Short s) : ∀ sb : SB, sb.Valid → sb.Snug →
    ∃ sb', pieces.foldlM sbPuts sb = .ok sb' ∧ sb'.bytes = sb.bytes ++ pieces.flatten ∧ sb'.Valid ∧ sb'.Snug := by
  induction pieces with
  | nil => exact fun sb h hsnug => ⟨sb, rfl, by simp, h, hsnug⟩
  | cons s pieces ih =>
    intro sb h hsnug
    obtain ⟨hs, hrest⟩ := List.forall_mem_cons.1 hshort
    obtain ⟨sb₁, hput, hbytes₁, h₁⟩ := appends_sbPuts hs sb h
    obtain ⟨sb₂, hall, hbytes₂, h₂, hsnug₂⟩ := ih hrest sb₁ h₁ (snug_sbPuts hs h hsnug hput)
    refine ⟨sb₂, ?_, by rw [hbytes₂, hbytes₁]; simp, h₂, hsnug₂⟩
    dsimp only at hput
    rw [List.foldlM_cons, hput]
    exact hall

/-! ## Pieces that are too long -/

/-- What is written of a piece is at most the piece, and all of it only if its length is an `int`. -/
theorem sbPuts_length {sb sb' : SB} {s : Str} (h : sb.Valid) (hrun : sbPuts sb s = .ok sb') : sb'.Valid ∧
    sb'.bytes.length ≤ sb.bytes.length + s.length ∧ (sb'.bytes.length = sb.bytes.length + s.length → Short s) := by
  have hlt := (isInt_toInt s.length).2
  rw [sbPuts] at hrun
  by_cases hc : toInt s.length < 0
  · rw [sbPut, if_pos hc] at hrun
    cases hrun
  · obtain ⟨size, -, hput, hvalid⟩ := sbPut_run h s (Int.not_lt.1 hc)
    obtain rfl := Except.ok.inj (hput.symm.trans hrun)
    refine ⟨hvalid, ?_, fun hall => ?_⟩
    · rw [List.length_append, List.length_take]
      omega
    · rw [List.length_append, List.length_take] at hall
      unfold Short
      omega

theorem sbPuts_pieces_length {pieces : List Str} {sb sb' : SB} (h : sb.Valid)
    (hrun : pieces.foldlM sbPuts sb = .ok sb') : sb'.bytes.length ≤ sb.bytes.length + pieces.flatten.length ∧
      (sb'.bytes.length = sb.bytes.length + pieces.flatten.length → ∀ s ∈ pieces, Short s) := by
  induction pieces generalizing sb with
  | nil =>
    cases hrun
    exact ⟨Nat.le_add_right _ _, fun _ => List.forall_mem_nil _⟩
  | cons s pieces ih =>
    rw [List.foldlM_cons] at hrun
    cases hput : sbPuts sb s with
    | error e =>
      rw [hput] at hrun
      cases hrun
    | ok sb₁ =>
      rw [hput] at hrun
      obtain ⟨hvalid, hle₁, hall₁⟩ := sbPuts_length h hput
      obtain ⟨hle₂, hall₂⟩ := ih hvalid hrun
      rw [List.flatten_cons, List.length_append]
      refine ⟨by omega, fun hall => List.forall_mem_cons.2 ⟨hall₁ (by omega), hall₂ (by omega)⟩⟩

/-- A text that is written piece by piece comes out exactly if the length of every piece is an `int`. Then no write
is behind the buffer, which is at most twice as long as the text. -/
theorem sbPuts_all_iff (pieces : List Str) (h0 : 0 ∉ pieces.flatten) :
    (∃ sb, pieces.foldlM sbPuts sbInit = .ok sb ∧ sbFinish sb = .ok pieces.flatten ∧
      sb.size - 1 ≤ max 16 (2 * pieces.flatten.length)) ↔ ∀ s ∈ pieces, Short s := by
  constructor
  · rintro ⟨sb, hrun, hfinish, -⟩
    have hbytes : sb.bytes = pieces.flatten := by
      rw [sbFinish] at hfinish
      split at hfinish
      · split at hfinish
        · exact Except.ok.inj hfinish
        · cases hfinish
      · cases hfinish
    refine (sbPuts_pieces_length valid_sbInit hrun).2 ?_
    rw [hbytes]
    exact (Nat.zero_add _).symm
  · intro hshort
    obtain ⟨sb, hall, hbytes, hvalid, hsnug⟩ := sbPuts_pieces hshort sbInit valid_sbInit snug_sbInit
    have hbytes : sb.bytes = pieces.flatten := hbytes
    rw [← hbytes] at h0 ⊢
    exact ⟨sb, hall, sbFinish_run hvalid h0, hsnug⟩

theorem sbPuts_all_iff_two : (∃ sb, [[91, 49], [93]].foldlM sbPuts sbInit = .ok sb ∧
    sbFinish sb = .ok [91, 49, 93] ∧ sb.size - 1 ≤ max 16 (2 * 3)) ↔ ∀ s ∈ [[91, 49], [93]], Short s :=
  sbPuts_all_iff [[91, 49], [93]] (by decide)

end CodiusSandbox.JsonText
