import CodiusSandbox.Dirents
/-!
# The two lengths of a record (`dirent-builder.cpp:12-31`)

`min_reclen` and `reclen` are `unsigned short`, and no caller bounds the length of a name.

| bytes of the name, up to wrapping | `min_reclen`      | `append`                                          |
|-----------------------------------|-------------------|---------------------------------------------------|
| at most 65508                     | at most 65528     | adds a record with room for the name              |
| 65509 to 65515                    | 65529 to 65535    | loops: the counter goes from 65528 to 0           |
| from 65516 on                     | wrapped           | loops, or `memcpy` writes behind a smaller record |
-/
namespace CodiusSandbox

/-! ## The loop -/

/-- No multiple of 8 of 16 bits reaches the minimum. -/
theorem padLoop_endless {minReclen : Nat} (hmin : 65528 < minReclen) (fuel : Nat) :
    ∀ q ≤ 8191, padLoop minReclen fuel (8 * q) = none := by
  induction fuel with
  | zero =>
    intro q hq
    rfl
  | succ fuel ih =>
    intro q hq
    have hnext : (8 * q + 8) % 2 ^ 16 = 8 * ((q + 1) % 8192) := by omega
    rw [padLoop, if_pos (by omega), hnext]
    exact ih _ (by omega)

/-- The loop ends behind `k` rounds, and none of its additions wraps. -/
def PadsTo (minReclen reclen : Nat) : Prop :=
  ∃ k, padLoop minReclen (k + 1) 24 = some reclen ∧ reclen = 24 + 8 * k ∧ reclen < 2 ^ 16

theorem padsTo_of_le {minReclen : Nat} (hmin : minReclen ≤ 65528) :
    PadsTo minReclen (8 * max 3 ((minReclen + 7) / 8)) := by
  have hloop := padLoop_stops hmin ((minReclen + 7) / 8 - 3) 3 (by omega)
  exact ⟨_, hloop, by omega, by omega⟩

/-! ## `append` -/

variable {b : DirentBuilder} {name : Str} {type : UInt8}

theorem append_endless (hmin : 65528 < (8 + 8 + 2 + name.length + 2) % 2 ^ 16) :
    b.append name type = .error .endless := by
  have hloop := padLoop_endless hmin paddings 3 (by decide)
  simp only [DirentBuilder.append]
  rw [hloop]

theorem append_overrun (hlong : 65508 < name.length) (hmin : (8 + 8 + 2 + name.length + 2) % 2 ^ 16 ≤ 65528) :
    b.append name type = .error .overrun := by
  have hloop := padLoop_stops hmin (paddings - 1) 3 (by rw [paddings]; omega)
  simp only [DirentBuilder.append]
  rw [show 24 = 8 * 3 from rfl, show paddings = paddings - 1 + 1 from rfl, hloop]
  exact if_pos (by omega)

/-- A name that is too long is not rejected. -/
theorem append_fails (hlong : 65508 < name.length) : ∃ fault, b.append name type = .error fault := by
  by_cases hmin : (8 + 8 + 2 + name.length + 2) % 2 ^ 16 ≤ 65528
  · exact ⟨.overrun, append_overrun hlong hmin⟩
  · exact ⟨.endless, append_endless (Nat.lt_of_not_le hmin)⟩

theorem append_ok_iff : (∃ b', b.append name type = .ok b') ↔ name.length ≤ 65508 := by
  constructor
  · rintro ⟨b', hb'⟩
    refine Nat.le_of_not_lt fun hlong => ?_
    obtain ⟨fault, hfault⟩ : ∃ fault, b.append name type = .error fault := append_fails hlong
    rw [hfault] at hb'
    cases hb'
  · intro hn
    exact ⟨_, append_adds b type hn⟩

theorem appendNames_ok {names : List Str} :
    ∀ {b b' : DirentBuilder}, names.foldlM (fun (b : DirentBuilder) name => b.append name DT_REG) b = .ok b' →
      ∀ name ∈ names, name.length ≤ 65508 := by
  induction names with
  | nil =>
    intro b b' _ name hname
    cases hname
  | cons first names ih =>
    intro b b' h name hname
    rw [List.foldlM_cons] at h
    cases hfirst : b.append first DT_REG with
    | error fault =>
      rw [hfirst] at h
      cases h
    | ok b₁ =>
      rw [hfirst] at h
      rcases List.mem_cons.1 hname with rfl | hrest
      · exact append_ok_iff.1 ⟨b₁, hfirst⟩
      · exact ih h name hrest

theorem direntData_ok_iff {names : List Str} :
    (∃ data, direntData names = .ok data) ↔ ∀ name ∈ names, name.length ≤ 65508 := by
  constructor
  · rintro ⟨data, hdata⟩
    rw [direntData] at hdata
    cases hfold : names.foldlM (fun (b : DirentBuilder) name => b.append name DT_REG) (DirentBuilder.new 1) with
    | error fault =>
      rw [hfold] at hdata
      cases hdata
    | ok b' => exact appendNames_ok hfold
  · intro hn
    exact ⟨_, direntData_records hn⟩

/-- Neither length wraps, and the record that is added has room for the name, its terminator and the
type. The buffer that was there stays. -/
structure AddsRoom (b : DirentBuilder) (name : Str) (type : UInt8) (record : Str) : Prop where
  minReclen : 8 + 8 + 2 + name.length + 2 < 2 ^ 16
  reclen : PadsTo (8 + 8 + 2 + name.length + 2) record.length
  room : 18 + name.length + 1 + 1 ≤ record.length
  adds : (b.append name type).map DirentBuilder.buf = .ok (b.buf ++ record)

theorem addsRoom_of_le (hn : name.length ≤ 65508) :
    AddsRoom b name type (direntRecord b.inode b.idx name type) := by
  have hroom := reclenOf_room name.length
  constructor
  case minReclen => omega
  case reclen =>
    have hpads : PadsTo (name.length + 20) (reclenOf name.length) := padsTo_of_le (by omega)
    have hmin : 8 + 8 + 2 + name.length + 2 = name.length + 20 := by omega
    rw [hmin, length_direntRecord]
    exact hpads
  case room =>
    rw [length_direntRecord]
    omega
  case adds =>
    rw [append_adds b type hn]
    rfl

theorem AddsRoom.appends {record : Str} (h : AddsRoom b name type record) : ∃ b', b.append name type = .ok b' := by
  have hadds := h.adds
  cases happend : b.append name type with
  | ok b' => exact ⟨b', rfl⟩
  | error fault =>
    rw [happend] at hadds
    cases hadds

/-- A record with room is added, or the builder stays as it is. -/
def AppendsSafely (b : DirentBuilder) (name : Str) (type : UInt8) : Prop :=
  (∃ record, AddsRoom b name type record) ∨ b.append name type = .ok b

theorem AppendsSafely.appends (h : AppendsSafely b name type) : ∃ b', b.append name type = .ok b' := by
  rcases h with ⟨record, h⟩ | h
  · exact h.appends
  · exact ⟨b, h⟩

theorem not_appendsSafely (hlong : 65508 < name.length) : ¬ AppendsSafely b name type := fun h =>
  Nat.not_le.2 hlong (append_ok_iff.1 h.appends)

/-- Every name up to 65508 bytes gets its record, and a longer one neither a record nor a rejection. -/
theorem append_safely_iff (b : DirentBuilder) (name : Str) (type : UInt8) :
    AppendsSafely b name type ↔ name.length ≤ 65508 := by
  constructor
  · intro h
    exact append_ok_iff.1 h.appends
  · intro hn
    exact .inl ⟨_, addsRoom_of_le hn⟩

/-- With 65509 bytes the loop does not end, and with 65516 bytes 2 are left of `min_reclen`: a record of 24
bytes. -/
theorem append_wraps :
    (∀ fuel, padLoop (8 + 8 + 2 + 65509 + 2) fuel 24 = none) ∧
      (DirentBuilder.new 1).append (List.replicate 65509 97) DT_REG = .error .endless ∧
      (DirentBuilder.new 1).append (List.replicate 65516 97) DT_REG = .error .overrun ∧
      ¬ AppendsSafely (DirentBuilder.new 1) (List.replicate 65509 97) DT_REG ∧
      ¬ AppendsSafely (DirentBuilder.new 1) (List.replicate 65516 97) DT_REG := by
  have hloop (fuel : Nat) : padLoop (8 + 8 + 2 + 65509 + 2) fuel 24 = none := padLoop_endless (by decide) fuel 3 (by decide)
  refine ⟨hloop, append_endless ?_, append_overrun ?_ ?_, not_appendsSafely ?_, not_appendsSafely ?_⟩
  all_goals
    rw [List.length_replicate]
    decide

end CodiusSandbox
