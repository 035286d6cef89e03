import CodiusSandbox.DirentBuilder
import CodiusSandbox.Lib.Records
/-!
# Reading directory records back (`dirent-builder.cpp:11-29`, `dirent-builder.h:8-16`)

A reader goes from record to record by `d_reclen`. The name's end and the type are placed by separate
formulas, from `min_reclen` and from `reclen`; `reclen` is a multiple of 8 of at least 24.
-/
namespace CodiusSandbox

open LittleEndian Records

/-! ## The length of a record -/

/-- `reclen` for a name of `n` bytes. -/
def reclenOf (n : Nat) : Nat := 8 * max 3 ((n + 27) / 8)

/-- Passing over multiples of 8 the loop stops at the first that is not below the minimum. -/
theorem padLoop_stops {minReclen : Nat} (hmin : minReclen ≤ 65528) :
    ∀ (fuel q : Nat), minReclen ≤ 8 * (q + fuel) →
      padLoop minReclen (fuel + 1) (8 * q) = some (8 * max q ((minReclen + 7) / 8)) := by
  intro fuel
  induction fuel with
  | zero =>
    intro q hq
    rw [padLoop, if_neg (by omega), Nat.max_eq_left (by omega)]
  | succ fuel ih =>
    intro q hq
    rw [padLoop]
    by_cases hlt : 8 * q < minReclen
    · have hnext : (8 * q + 8) % 2 ^ 16 = 8 * (q + 1) := by omega
      rw [if_pos hlt, hnext, ih (q + 1) (by omega), Nat.max_eq_right (by omega), Nat.max_eq_right (by omega)]
    · rw [if_neg hlt, Nat.max_eq_left (by omega)]

theorem padLoop_reclen {n : Nat} (hn : n ≤ 65508) : padLoop (n + 20) paddings 24 = some (reclenOf n) :=
  padLoop_stops (by omega) (paddings - 1) 3 (by rw [paddings]; omega)

/-- Room for the head, the name, its terminator and the type. -/
theorem reclenOf_room (n : Nat) : n + 20 ≤ reclenOf n := by
  unfold reclenOf
  omega

theorem reclenOf_lt {n : Nat} (hn : n ≤ 65508) : reclenOf n < 2 ^ 16 := by
  unfold reclenOf
  omega

/-! ## One record -/

/-- `d_ino`, `d_off` and `d_reclen`. -/
def direntHead (inode idx : Int) (reclen : Nat) : Str :=
  toBytes 8 (toWord inode).toNat ++ toBytes 8 (toWord idx).toNat ++ toBytes 2 reclen

/-- What one `append` adds to the buffer. -/
def direntRecord (inode idx : Int) (name : Str) (type : UInt8) : Str :=
  direntHead inode idx (reclenOf name.length) ++ name ++
    List.replicate (reclenOf name.length - (name.length + 19)) 0 ++ [type]

@[simp] theorem length_direntHead (inode idx : Int) (reclen : Nat) : (direntHead inode idx reclen).length = 18 := by
  simp [direntHead]

@[simp] theorem length_direntRecord (inode idx : Int) (name : Str) (type : UInt8) :
    (direntRecord inode idx name type).length = reclenOf name.length := by
  have := reclenOf_room name.length
  simp only [direntRecord, List.length_append, length_direntHead, List.length_replicate, List.length_singleton]
  omega

/-- The terminator is a byte that is zero already, and the type goes behind the last zero. -/
theorem set_padding (front : Str) (type : UInt8) (m : Nat) :
    ((front ++ List.replicate (m + 2) 0).set front.length 0).set (front.length + (m + 1)) type =
      front ++ List.replicate (m + 1) 0 ++ [type] := by
  have hzero : (List.replicate (m + 2) (0 : UInt8)).set 0 0 = List.replicate (m + 2) 0 := List.set_replicate_self
  have hlast : (List.replicate (m + 2) (0 : UInt8)).set (m + 1) type = List.replicate (m + 1) 0 ++ [type] := by
    rw [List.replicate_succ', List.set_append_right _ _ (by simp)]
    simp
  rw [List.set_append_right _ _ (Nat.le_refl _), Nat.sub_self, hzero, List.set_append_right _ _ (by omega),
    Nat.add_sub_cancel_left, hlast, List.append_assoc]

theorem append_adds (b : DirentBuilder) {name : Str} (type : UInt8) (hn : name.length ≤ 65508) :
    b.append name type =
      .ok ⟨b.buf ++ direntRecord b.inode b.idx name type, succInt b.idx, succInt b.inode⟩ := by
  have hroom := reclenOf_room name.length
  have hmin : (8 + 8 + 2 + name.length + 2) % 2 ^ 16 = name.length + 20 := by omega
  obtain ⟨m, hm⟩ : ∃ m, reclenOf name.length = name.length + 20 + m := ⟨_, (Nat.add_sub_cancel' hroom).symm⟩
  have hset := set_padding (direntHead b.inode b.idx (reclenOf name.length) ++ name) type m
  have hfront : (direntHead b.inode b.idx (reclenOf name.length) ++ name).length = name.length + 18 := by
    simp [Nat.add_comm]
  rw [hfront] at hset
  simp only [DirentBuilder.append, hmin, padLoop_reclen hn]
  rw [if_neg (by omega)]
  have hzeros : reclenOf name.length - (18 + name.length) = m + 2 := by omega
  have hend : name.length + 20 - 2 = name.length + 18 := by omega
  have hlast : reclenOf name.length - 1 = name.length + 18 + (m + 1) := by omega
  have htail : reclenOf name.length - (name.length + 19) = m + 1 := by omega
  rw [direntRecord, htail, ← hset, ← hzeros, ← hend, hlast]
  rfl

/-! ## What a reader sees -/

/-- `d_reclen` of the record in front. -/
def recordLength (data : Str) : Nat := ofBytes ((data.drop 16).take 2)

/-- A record read by `struct linux_dirent`, with the type in its last byte. -/
structure Decodes (record : Str) (ino off : Word) (name : Str) (type : UInt8) : Prop where
  reclen : recordLength record = record.length
  aligned : 8 ∣ record.length
  inode : ofBytes (record.take 8) = ino.toNat
  offset : ofBytes ((record.drop 8).take 8) = off.toNat
  /-- `d_name`, a C string. -/
  named : (record.drop 18).takeWhile (· ≠ 0) = name
  terminated : record[18 + name.length]? = some 0
  typed : record.getLast? = some type
  apart : 18 + name.length < record.length - 1

theorem takeWhile_terminated {name : Str} (h : 0 ∉ name) (rest : Str) :
    (name ++ 0 :: rest).takeWhile (· ≠ 0) = name := by
  rw [List.takeWhile_append_of_pos (all_ne_zero h)]
  simp

section Record

variable {inode idx : Int} {name : Str} {type : UInt8}

theorem recordLength_direntRecord (hn : name.length ≤ 65508) (rest : Str) :
    recordLength (direntRecord inode idx name type ++ rest) = (direntRecord inode idx name type).length := by
  have hlt := reclenOf_lt hn
  rw [length_direntRecord]
  simp only [recordLength, direntRecord, direntHead, List.append_assoc]
  rw [← List.append_assoc, List.drop_left' (by simp), List.take_left' (by simp), ofBytes_toBytes]
  exact Nat.mod_eq_of_lt hlt

theorem framed_direntRecord (hn : name.length ≤ 65508) : Framed recordLength (direntRecord inode idx name type) :=
  ⟨by simp [direntRecord], recordLength_direntRecord hn⟩

theorem decodes_direntRecord (hn : name.length ≤ 65508) (h0 : 0 ∉ name) :
    Decodes (direntRecord inode idx name type) (toWord inode) (toWord idx) name type := by
  have hroom := reclenOf_room name.length
  obtain ⟨m, hm⟩ : ∃ m, reclenOf name.length - (name.length + 19) = m + 1 :=
    ⟨reclenOf name.length - (name.length + 20), by omega⟩
  have hshape : direntRecord inode idx name type =
      direntHead inode idx (reclenOf name.length) ++ (name ++ 0 :: (List.replicate m 0 ++ [type])) := by
    simp [direntRecord, hm, List.replicate_succ]
  have hword (w : Word) : ofBytes (toBytes 8 w.toNat) = w.toNat := by
    rw [ofBytes_toBytes]
    exact Nat.mod_eq_of_lt w.isLt
  constructor
  case reclen =>
    have h : recordLength (direntRecord inode idx name type ++ []) = _ := recordLength_direntRecord hn []
    rwa [List.append_nil] at h
  case aligned =>
    rw [length_direntRecord]
    exact Nat.dvd_mul_right _ _
  case inode =>
    simp only [hshape, direntHead, List.append_assoc]
    rw [List.take_left' (by simp), hword]
  case offset =>
    simp only [hshape, direntHead, List.append_assoc]
    rw [List.drop_left' (by simp), List.take_left' (by simp), hword]
  case named =>
    rw [hshape, List.drop_left' (by simp)]
    exact takeWhile_terminated h0 _
  case terminated =>
    rw [hshape, List.getElem?_append_right (by simp), List.getElem?_append_right (by simp)]
    simp
  case typed => simp [direntRecord]
  case apart =>
    rw [length_direntRecord]
    omega

end Record

/-! ## Any number of records -/

/-- `append` for each entry. -/
def DirentBuilder.appendAll (b : DirentBuilder) (entries : List (Str × UInt8)) : Except AppendFault DirentBuilder :=
  entries.foldlM (fun b entry => b.append entry.1 entry.2) b

/-- The records of the entries, the counters starting at `inode` and `idx`. -/
def direntRecords (inode idx : Int) (entries : List (Str × UInt8)) : List Str :=
  entries.mapIdx fun k entry => direntRecord (toInt (inode + k)) (toInt (idx + k)) entry.1 entry.2

theorem succInt_toInt (n : Int) : succInt (toInt n) = toInt (n + 1) := Int.bmod_add_bmod

theorem direntRecords_cons (inode idx : Int) (entry : Str × UInt8) (entries : List (Str × UInt8)) :
    direntRecords inode idx (entry :: entries) =
      direntRecord (toInt inode) (toInt idx) entry.1 entry.2 :: direntRecords (inode + 1) (idx + 1) entries := by
  simp [direntRecords, List.mapIdx_cons, Int.add_comm, Int.add_left_comm]

theorem appendAll_run {entries : List (Str × UInt8)} (hn : ∀ entry ∈ entries, entry.1.length ≤ 65508)
    (buf : Str) (inode idx : Int) :
    DirentBuilder.appendAll ⟨buf, toInt idx, toInt inode⟩ entries =
      .ok ⟨buf ++ (direntRecords inode idx entries).flatten, toInt (idx + entries.length),
        toInt (inode + entries.length)⟩ := by
  induction entries generalizing buf inode idx with
  | nil => simp [DirentBuilder.appendAll, direntRecords, pure, Except.pure]
  | cons entry entries ih =>
    have hrest := ih (fun e he => hn e (by simp [he])) (buf ++ direntRecord (toInt inode) (toInt idx) entry.1 entry.2)
      (inode + 1) (idx + 1)
    simp only [DirentBuilder.appendAll] at hrest ⊢
    rw [List.foldlM_cons, append_adds _ _ (hn entry (by simp)), succInt_toInt, succInt_toInt]
    simp only [bind, Except.bind]
    rw [hrest, direntRecords_cons, List.flatten_cons, List.append_assoc, List.length_cons]
    simp [Int.add_comm, Int.add_left_comm]

theorem framed_direntRecords {inode idx : Int} {entries : List (Str × UInt8)}
    (hn : ∀ entry ∈ entries, entry.1.length ≤ 65508) : ∀ r ∈ direntRecords inode idx entries, Framed recordLength r := by
  intro r hr
  obtain ⟨k, hk, rfl⟩ := List.mem_mapIdx.1 hr
  exact framed_direntRecord (hn _ (List.getElem_mem hk))

/-- A walk over the data ends at its end, and finds one record for each entry, in their order. The
counters are of type `int`: they count up from 256 and from `startIdx` within its range. -/
theorem appendAll_decodes {startIdx : Int} (hs : IsInt startIdx) {entries : List (Str × UInt8)}
    (hn : ∀ entry ∈ entries, 0 ∉ entry.1 ∧ entry.1.length ≤ 65508) :
    ∃ b records, (DirentBuilder.new startIdx).appendAll entries = .ok b ∧
      walk recordLength b.buf.length b.buf = some records ∧ records.flatten = b.buf ∧
      records.length = entries.length ∧
      ∀ (k : Nat) (hk : k < entries.length), ∃ record, records[k]? = some record ∧
        Decodes record (toWord (toInt (256 + k))) (toWord (toInt (startIdx + k))) entries[k].1 entries[k].2 := by
  have hlen : ∀ entry ∈ entries, entry.1.length ≤ 65508 := fun entry he => (hn entry he).2
  have hframed : ∀ r ∈ direntRecords 256 startIdx entries, Framed recordLength r := framed_direntRecords hlen
  have hrun := appendAll_run hlen [] 256 startIdx
  rw [toInt_of_isInt hs] at hrun
  refine ⟨_, direntRecords 256 startIdx entries, hrun, ?_, rfl, by simp [direntRecords], ?_⟩
  · exact walk_flatten hframed (length_le_flatten hframed)
  · intro k hk
    have he := hn entries[k] (List.getElem_mem hk)
    refine ⟨_, ?_, decodes_direntRecord he.2 he.1⟩
    rw [direntRecords, List.getElem?_mapIdx, List.getElem?_eq_getElem hk]
    rfl

/-- Two entries from 1 on. -/
theorem appendAll_decodes_two :
    IsInt 1 ∧ (∀ entry ∈ [(str "a", DT_REG), (str "notes.txt", 4)], 0 ∉ entry.1 ∧ entry.1.length ≤ 65508) ∧
      ∃ b records, (DirentBuilder.new 1).appendAll [(str "a", DT_REG), (str "notes.txt", 4)] = .ok b ∧
        walk recordLength b.buf.length b.buf = some records ∧ records.flatten = b.buf ∧ records.length = 2 ∧
        ∀ (k : Nat) (hk : k < 2), ∃ record, records[k]? = some record ∧
          Decodes record (toWord (toInt (256 + k))) (toWord (toInt (1 + k)))
            [(str "a", DT_REG), (str "notes.txt", 4)][k].1 [(str "a", DT_REG), (str "notes.txt", 4)][k].2 := by
  have h1 : IsInt 1 := by decide
  have hn : ∀ entry ∈ [(str "a", DT_REG), (str "notes.txt", 4)], 0 ∉ entry.1 ∧ entry.1.length ≤ 65508 := by decide
  exact ⟨h1, hn, appendAll_decodes h1 hn⟩

/-! ## `getdents` -/

theorem direntData_eq (names : List Str) :
    direntData names =
      ((DirentBuilder.new 1).appendAll (names.map fun name => (name, DT_REG))).map DirentBuilder.buf := by
  rw [DirentBuilder.appendAll, List.foldlM_map, direntData]
  cases names.foldlM (fun (b : DirentBuilder) name => b.append name DT_REG) (DirentBuilder.new 1) <;> rfl

/-- What `CodiusNodeFilesystem::getdents` hands to the child, for the names of the host's answer. -/
theorem direntData_records {names : List Str} (hn : ∀ name ∈ names, name.length ≤ 65508) :
    direntData names = .ok (direntRecords 256 1 (names.map fun name => (name, DT_REG))).flatten := by
  have hlen : ∀ entry ∈ names.map fun name => (name, DT_REG), entry.1.length ≤ 65508 := by simpa using hn
  have hrun := appendAll_run hlen [] 256 1
  have h1 : toInt 1 = 1 := toInt_of_isInt (by decide)
  have hi : toInt 256 = 256 := toInt_of_isInt (by decide)
  rw [h1, hi] at hrun
  rw [direntData_eq, DirentBuilder.new, hrun]
  rfl

end CodiusSandbox
