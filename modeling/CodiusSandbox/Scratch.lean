import CodiusSandbox.Sandbox
import CodiusSandbox.Reachability
import CodiusSandbox.Lib.BumpPointer
/-!
# The scratch buffer

`writeScratch` puts its bytes where `nextScratchSegment` points and moves the pointer up to the next word
boundary. Nothing compares it with the end of the 2048 bytes that `execChild` has put into the environment. The
segments are those of a bump pointer (`segments_eq_allot`), so they stay apart and in the buffer as long as all of
them fit, and of lengths that do not fit some bytes end up outside of it (`stays_in_scratch_iff`).
-/
namespace CodiusSandbox

open Wp BumpPointer

variable {F W : Type}

/-- `sizeof (buf)` (`sandbox.cpp:331`). -/
def scratchSize : Nat := 2048

/-- Up to a multiple of `sizeof (Address)`. -/
def wordBoundary : ClosureOperator ℕ :=
  .mk' (fun n => (n + 7) / 8 * 8) (fun a b h => by dsimp only; omega) (fun a => by omega) fun a => by omega

/-- A call of `writeScratch` that returned. -/
structure ScratchWrite (F W : Type) where
  before : Sandbox F W
  length : Nat
  buf : Buffer
  addr : Address
  after : Sandbox F W

/-- The calls of a run, one after the other. -/
def IsScratchRun : Sandbox F W → List (ScratchWrite F W) → Prop
  | _, [] => True
  | s, w :: ws => w.before = s ∧ writeScratch w.length w.buf s = .ok w.addr w.after ∧ IsScratchRun w.after ws

def lengths (ws : List (ScratchWrite F W)) : List Nat := ws.map ScratchWrite.length

/-- The segments of a run keep apart, and to the scratch buffer at `base`. -/
structure StaysInScratch (base : Address) (ws : List (ScratchWrite F W)) : Prop where
  increasing : ws.Pairwise fun w w' => w.addr.toNat + w.length ≤ w'.addr.toNat
  disjoint : ws.Pairwise fun w w' => ∀ i < w.length, ∀ j < w'.length, offset w.addr i ≠ offset w'.addr j
  intact : ws.Pairwise fun w w' => ∀ i < w.length,
    w'.after.tracer.mem (offset w.addr i) = w'.before.tracer.mem (offset w.addr i)
  inside : ∀ w ∈ ws, ∀ a, scratchSize ≤ distance base a → w.after.tracer.mem a = w.before.tracer.mem a

/-! ## One call -/

theorem wordBoundary_eq (n : Nat) : wordBoundary n = (n + 7) / 8 * 8 := rfl

section
variable {s t : Sandbox F W} {m : Memory} {length i : Nat} {buf : Buffer} {base addr a : Address}

theorem roundUp_toNat (h : a.toNat + 7 < 2 ^ 64) : (roundUp a).toNat = wordBoundary a.toNat := by
  rw [wordBoundary_eq]
  unfold roundUp
  split
  · rw [BitVec.toNat_add, BitVec.toNat_ofNat]
    omega
  · omega

theorem offset_toNat (h : a.toNat + i < 2 ^ 64) : (offset a i).toNat = a.toNat + i := by
  rw [offset, BitVec.toNat_add, BitVec.toNat_ofNat]
  omega

theorem distance_of_le (h : base.toNat ≤ a.toNat) : distance base a = a.toNat - base.toNat :=
  BitVec.toNat_sub_of_le h

theorem distance_of_lt (h : a.toNat < base.toNat) : distance base a = 2 ^ 64 + a.toNat - base.toNat := by
  unfold distance
  rw [BitVec.toNat_sub]
  omega

/-- A call that returns has stored its bytes and moved the pointer. -/
theorem of_writeScratch (hl : length < 2 ^ 64) (h : writeScratch length buf s = .ok addr t) :
    TailMapped s.tracer.mem s.nextScratchSegment length ∧ addr = s.nextScratchSegment ∧
      ∃ e, t = s.scratched length buf e := by
  by_cases htail : TailMapped s.tracer.mem s.nextScratchSegment length
  · have hok : ∃ e, writeScratch length buf s = .ok s.nextScratchSegment (s.scratched length buf e) :=
      writeScratch_ok hl htail
    obtain ⟨e, hrun⟩ := hok
    rw [hrun] at h
    cases h
    exact ⟨htail, rfl, e, rfl⟩
  · have herr : ∃ e t, writeScratch length buf s = .error e t := writeScratch_error hl htail
    obtain ⟨e, t', hrun⟩ := herr
    rw [hrun] at h
    cases h

/-- What lies outside the buffer lies outside its segments. -/
theorem outside_segment (hle : base.toNat ≤ addr.toNat) (hend : addr.toNat + length ≤ base.toNat + scratchSize)
    (ha : scratchSize ≤ distance base a) : length ≤ distance addr a := by
  have haddr : offset base (addr.toNat - base.toNat) = addr := by
    rw [← distance_of_le hle, offset_distance]
  have hfrom : distance addr a = distance base a - (addr.toNat - base.toNat) := by
    conv_lhs => rw [← haddr]
    exact distance_from (by omega)
  omega

/-- What lies below a segment is far from it. -/
theorem below_segment (h : a.toNat < addr.toNat) (hend : addr.toNat + length ≤ 2 ^ 64) : length ≤ distance addr a := by
  rw [distance_of_lt h]
  omega

theorem scratched_segment {e : Errno} :
    (s.scratched length buf e).nextScratchSegment = roundUp (offset s.nextScratchSegment length) := rfl

/-- The pointer moves as a bump pointer does. -/
theorem scratched_next {e : Errno} (h : s.nextScratchSegment.toNat + length + 7 < 2 ^ 64) :
    (s.scratched length buf e).nextScratchSegment.toNat = wordBoundary (s.nextScratchSegment.toNat + length) := by
  have hoff : (offset s.nextScratchSegment length).toNat = s.nextScratchSegment.toNat + length :=
    offset_toNat (by omega)
  rw [scratched_segment, roundUp_toNat (by omega), hoff]

end

/-! ## Runs that fit -/

section
variable {s : Sandbox F W} {base : Address}

/-- The segments of a run that fits are those of the bump pointer. -/
theorem segments_eq_allot (hbase : base.toNat + scratchSize ≤ 2 ^ 47) :
    ∀ {ws : List (ScratchWrite F W)} {s : Sandbox F W}, IsScratchRun s ws → (∀ w ∈ ws, w.length < 2 ^ 63) →
      s.nextScratchSegment.toNat ≤ wordBoundary (base.toNat + scratchSize) →
      BumpPointer.Fits wordBoundary s.nextScratchSegment.toNat (base.toNat + scratchSize) (lengths ws) →
      ws.map (fun w => (w.addr.toNat, w.length)) = allot wordBoundary s.nextScratchSegment.toNat (lengths ws)
  | [], _, _, _, _, _ => rfl
  | w :: ws, s, ⟨_, hrun, hrest⟩, hlen, hnext, hfits => by
    obtain ⟨hlw, hlen⟩ := List.forall_mem_cons.1 hlen
    obtain ⟨hw, hfits⟩ := fits_cons.1 hfits
    obtain ⟨_, haddr, e, hafter⟩ := of_writeScratch (by omega) hrun
    have hle := next_le hnext hw
    have hup := wordBoundary_eq (base.toNat + scratchSize)
    have hmove : w.after.nextScratchSegment.toNat = wordBoundary (s.nextScratchSegment.toNat + w.length) := by
      rw [hafter]
      exact scratched_next (by omega)
    have ih := segments_eq_allot hbase hrest hlen (by rw [hmove]; exact hle) (by rw [hmove]; exact hfits)
    rw [List.map_cons, ih, hmove, haddr]
    rfl

/-- Each call of a run stores its bytes in its segment. -/
theorem mem_stored {ws : List (ScratchWrite F W)} (hrun : IsScratchRun s ws) (hlen : ∀ w ∈ ws, w.length < 2 ^ 63) :
    ∀ w ∈ ws, w.after.tracer.mem = stored w.before.tracer.mem w.addr w.length w.buf := by
  induction ws generalizing s with
  | nil => exact fun w hw => absurd hw List.not_mem_nil
  | cons w ws ih =>
    obtain ⟨hbefore, hw, hrest⟩ := hrun
    obtain ⟨hlw, hlen⟩ := List.forall_mem_cons.1 hlen
    refine List.forall_mem_cons.2 ⟨?_, ih hrest hlen⟩
    obtain ⟨_, haddr, e, hafter⟩ := of_writeScratch (by omega) hw
    rw [hafter, haddr, hbefore]
    rfl

/-- Where everything fits, nothing meets and nothing leaves the buffer. -/
theorem stays_of_fits (hbase : base.toNat + scratchSize ≤ 2 ^ 47) (hstart : s.nextScratchSegment = base)
    {ws : List (ScratchWrite F W)} (hrun : IsScratchRun s ws) (hlen : ∀ w ∈ ws, w.length < 2 ^ 63)
    (hfits : BumpPointer.Fits wordBoundary base.toNat (base.toNat + scratchSize) (lengths ws)) : StaysInScratch base ws := by
  have hsegments : ws.map (fun w => (w.addr.toNat, w.length)) = allot wordBoundary base.toNat (lengths ws) := by
    have htop := wordBoundary_eq (base.toNat + scratchSize)
    have hfrom := segments_eq_allot (s := s) hbase hrun hlen (by rw [hstart]; omega) (by rw [hstart]; exact hfits)
    rw [hstart] at hfrom
    exact hfrom
  have hmem : ∀ w ∈ ws, (w.addr.toNat, w.length) ∈ allot wordBoundary base.toNat (lengths ws) := fun w hw =>
    hsegments ▸ List.mem_map_of_mem hw
  have hbelow : ∀ w ∈ ws, base.toNat ≤ w.addr.toNat := fun w hw => start_le (hmem w hw)
  have hend : ∀ w ∈ ws, 0 < w.length → w.addr.toNat + w.length ≤ base.toNat + scratchSize := fun w hw =>
    hfits _ (hmem w hw)
  have hincreasing : ws.Pairwise fun w w' => w.addr.toNat + w.length ≤ w'.addr.toNat := by
    have h : (allot wordBoundary base.toNat (lengths ws)).Pairwise fun a b => a.1 + a.2 ≤ b.1 := increasing _ _
    rw [← hsegments, List.pairwise_map] at h
    exact h
  have hfar : ws.Pairwise fun w w' => ∀ i < w.length, w'.length ≤ distance w'.addr (offset w.addr i) := by
    refine hincreasing.imp_of_mem fun {w w'} hw hw' hle i hi => ?_
    have hi' := hend w hw (by omega)
    rcases Nat.eq_zero_or_pos w'.length with h0 | hpos
    · omega
    · have hend' := hend w' hw' hpos
      have hoff : (offset w.addr i).toNat = w.addr.toNat + i := offset_toNat (by omega)
      exact below_segment (by omega) (by omega)
  refine ⟨hincreasing, ?_, ?_, fun w hw a ha => ?_⟩
  · refine hfar.imp_of_mem fun {w w'} _ hw' h i hi j hj heq => ?_
    have hfari := h i hi
    rw [heq, distance_offset (by have := hend w' hw' (by omega); omega)] at hfari
    omega
  · refine hfar.imp_of_mem fun {w w'} _ hw' h i hi => ?_
    rw [mem_stored hrun hlen w' hw']
    exact stored_outside (h i hi)
  · rw [mem_stored hrun hlen w hw]
    rcases Nat.eq_zero_or_pos w.length with h0 | hpos
    · rw [h0, stored_zero]
    · exact stored_outside (outside_segment (hbelow w hw) (hend w hw hpos) ha)

end

/-! ## Runs that do not -/

section
variable {s t : Sandbox F W} {base : Address}

/-- The last byte of a segment is stored. -/
theorem scratched_last {length : Nat} {buf : Buffer} {e : Errno} (hpos : 0 < length) (hl : length < 2 ^ 64)
    (h : TailMapped s.tracer.mem s.nextScratchSegment length) :
    (s.scratched length buf e).tracer.mem (offset s.nextScratchSegment (length - 1)) = some (buf (length - 1)) := by
  have hdist : distance s.nextScratchSegment (offset s.nextScratchSegment (length - 1)) = length - 1 :=
    distance_offset (by omega)
  have hword : WordMapped s.tracer.mem (wordOf s.nextScratchSegment (length - 1)) := h hpos
  unfold Sandbox.scratched
  dsimp only
  rw [stored, hdist, if_pos ⟨by omega, hword⟩]

theorem mapped_last {length : Nat} (hpos : 0 < length) (h : TailMapped s.tracer.mem s.nextScratchSegment length) :
    s.tracer.mem (offset s.nextScratchSegment (length - 1)) =
      some (byteAt s.tracer.mem (offset s.nextScratchSegment (length - 1))) := by
  have hbyte := (h hpos).byte (j := (length - 1) % 8) (Nat.mod_lt _ (by decide))
  rw [offset_offset, lastWord, Nat.div_add_mod] at hbyte
  exact hbyte

/-- Whatever was written, other bytes could have been: each call could have changed the last byte of its segment. -/
theorem changing_run : ∀ {ws : List (ScratchWrite F W)} {s t : Sandbox F W}, IsScratchRun s ws →
    (∀ w ∈ ws, w.length < 2 ^ 63) → t.nextScratchSegment = s.nextScratchSegment →
    (∀ a, (t.tracer.mem a).isSome = (s.tracer.mem a).isSome) →
    ∃ ws', IsScratchRun t ws' ∧ lengths ws' = lengths ws ∧ ∀ w ∈ ws', 0 < w.length →
      w.after.tracer.mem (offset w.addr (w.length - 1)) ≠ w.before.tracer.mem (offset w.addr (w.length - 1))
  | [], _, _, _, _, _, _ => ⟨[], trivial, rfl, fun w hw => absurd hw List.not_mem_nil⟩
  | w :: ws, s, t, ⟨_, hrun, hrest⟩, hlen, hnext, hmem => by
    obtain ⟨hlw, hlen⟩ := List.forall_mem_cons.1 hlen
    obtain ⟨htail, _, e, hafter⟩ := of_writeScratch (by omega) hrun
    have htail' : TailMapped t.tracer.mem t.nextScratchSegment w.length := by
      intro hpos j hj
      rw [hnext, hmem]
      exact htail hpos j hj
    let buf : Buffer := fun i => byteAt t.tracer.mem (offset t.nextScratchSegment i) + 1
    have hok : ∃ e, writeScratch w.length buf t = .ok t.nextScratchSegment (t.scratched w.length buf e) :=
      writeScratch_ok (by omega) htail'
    obtain ⟨e', hrun'⟩ := hok
    have hnext' : (t.scratched w.length buf e').nextScratchSegment = w.after.nextScratchSegment := by
      rw [hafter, Sandbox.scratched, Sandbox.scratched, hnext]
    have hmem' : ∀ a, ((t.scratched w.length buf e').tracer.mem a).isSome = (w.after.tracer.mem a).isSome := by
      intro a
      have hstored : ((t.scratched w.length buf e').tracer.mem a).isSome = (t.tracer.mem a).isSome := isSome_stored
      have hstored' : ((s.scratched w.length w.buf e).tracer.mem a).isSome = (s.tracer.mem a).isSome := isSome_stored
      rw [hafter, hstored, hstored', hmem]
    obtain ⟨ws', hrest', hlengths, hdiff⟩ := changing_run hrest hlen hnext' hmem'
    refine ⟨⟨t, w.length, buf, t.nextScratchSegment, _⟩ :: ws', ⟨rfl, hrun', hrest'⟩, ?_, ?_⟩
    · exact congrArg (w.length :: ·) hlengths
    · refine List.forall_mem_cons.2 ⟨fun hpos => ?_, hdiff⟩
      have hnew : (t.scratched w.length buf e').tracer.mem (offset t.nextScratchSegment (w.length - 1)) =
          some (buf (w.length - 1)) := scratched_last hpos (Nat.lt_trans hlw (by decide)) htail'
      have hold := mapped_last hpos htail'
      have hne : ∀ b : UInt8, b + 1 ≠ b := fun b => by simp
      intro heq
      exact hne _ (Option.some.inj ((hnew.symm.trans heq).trans hold))

/-- Segments that end in the buffer fit. -/
theorem fits_of_inside (hbase : base.toNat + scratchSize ≤ 2 ^ 47) :
    ∀ {ws : List (ScratchWrite F W)} {s : Sandbox F W}, IsScratchRun s ws → (∀ w ∈ ws, w.length < 2 ^ 63) →
      base.toNat ≤ s.nextScratchSegment.toNat →
      s.nextScratchSegment.toNat ≤ wordBoundary (base.toNat + scratchSize) →
      (∀ w ∈ ws, 0 < w.length → distance base (offset w.addr (w.length - 1)) < scratchSize) →
      BumpPointer.Fits wordBoundary s.nextScratchSegment.toNat (base.toNat + scratchSize) (lengths ws)
  | [], _, _, _, _, _, _ => fun e he => absurd he List.not_mem_nil
  | w :: ws, s, ⟨_, hrun, hrest⟩, hlen, hbelow, hnext, hinside => by
    obtain ⟨hlw, hlen⟩ := List.forall_mem_cons.1 hlen
    obtain ⟨hw, hinside⟩ := List.forall_mem_cons.1 hinside
    obtain ⟨_, haddr, e, hafter⟩ := of_writeScratch (by omega) hrun
    have hup := wordBoundary_eq (base.toNat + scratchSize)
    have hend : 0 < w.length → s.nextScratchSegment.toNat + w.length ≤ base.toNat + scratchSize := by
      intro hpos
      have hoff : (offset s.nextScratchSegment (w.length - 1)).toNat =
          s.nextScratchSegment.toNat + (w.length - 1) := offset_toNat (by omega)
      have hlast := hw hpos
      rw [haddr, distance_of_le (by omega), hoff] at hlast
      omega
    have hmove : w.after.nextScratchSegment.toNat = wordBoundary (s.nextScratchSegment.toNat + w.length) := by
      rw [hafter]
      exact scratched_next (by omega)
    have hextensive := wordBoundary.le_closure (s.nextScratchSegment.toNat + w.length)
    refine fits_cons.2 ⟨hend, ?_⟩
    rw [← hmove]
    exact fits_of_inside hbase hrest hlen (by rw [hmove]; omega) (by rw [hmove]; exact next_le hnext hend) hinside

end

/-- Whatever bytes are written, the calls keep apart and in the buffer exactly if their lengths fit in it. -/
theorem stays_in_scratch_iff {s₀ s : Sandbox F W} {ws : List (ScratchWrite F W)} (hreset : resetScratch s₀ = .ok () s)
    (hbase : s.scratchAddr.toNat + scratchSize ≤ 2 ^ 47) (hrun : IsScratchRun s ws)
    (hlen : ∀ w ∈ ws, w.length < 2 ^ 63) :
    (∀ ws', IsScratchRun s ws' → lengths ws' = lengths ws → StaysInScratch s.scratchAddr ws') ↔
      BumpPointer.Fits wordBoundary s.scratchAddr.toNat (s.scratchAddr.toNat + scratchSize) (lengths ws) := by
  have hstart : s.nextScratchSegment = s.scratchAddr := by
    cases hreset
    rfl
  have hlen' : ∀ ws' : List (ScratchWrite F W), lengths ws' = lengths ws → ∀ w ∈ ws', w.length < 2 ^ 63 := by
    intro ws' heq w hw
    have hmem : w.length ∈ lengths ws' := List.mem_map_of_mem hw
    rw [heq] at hmem
    obtain ⟨v, hv, hvw⟩ := List.mem_map.1 hmem
    rw [← hvw]
    exact hlen v hv
  constructor
  · intro h
    obtain ⟨ws', hrun', heq, hdiff⟩ := changing_run hrun hlen (t := s) rfl fun _ => rfl
    have hstays := h ws' hrun' heq
    have htop := wordBoundary_eq (s.scratchAddr.toNat + scratchSize)
    rw [← heq, ← hstart]
    refine hstart ▸ fits_of_inside hbase hrun' (hlen' ws' heq) (by rw [hstart]) (by rw [hstart]; omega) ?_
    intro w hw hpos
    by_cases hin : distance s.scratchAddr (offset w.addr (w.length - 1)) < scratchSize
    · exact hin
    · exact absurd (hstays.inside w hw _ (Nat.le_of_not_lt hin)) (hdiff w hw hpos)
  · intro hfits ws' hrun' heq
    exact stays_of_fits hbase hstart hrun' (hlen' ws' heq) (by rw [heq]; exact hfits)

/-! ## A scratch buffer at an odd address -/

theorem isInt_scratchPid : IsInt 7 := by decide

/-- A child with one page and its scratch buffer at 1. -/
def oddScratch : Sandbox Fixed Unit := ⟨mounted [] ⟨3⟩, 7, isInt_scratchPid, 1, 1, [], []⟩

theorem oddScratch_mapped {s : Sandbox Fixed Unit} (h : s = oddScratch) :
    (resetScratch s = .ok () s ∧ s.scratchAddr = 1 ∧ s.nextScratchSegment = 1) ∧
      WordMapped s.tracer.mem (offset 1 1016) ∧ WordMapped s.tracer.mem (offset 1032 1016) ∧
      s.tracer.mem 2055 = some 0 := by
  subst h
  exact ⟨⟨rfl, rfl, rfl⟩, by decide +kernel, by decide +kernel, by decide +kernel⟩

theorem stays_in_scratch_odd : ∃ (s : Sandbox Fixed Unit) (ws : List (ScratchWrite Fixed Unit)), lengths ws = [1024] ∧
    ((∀ ws', IsScratchRun s ws' → lengths ws' = lengths ws → StaysInScratch s.scratchAddr ws') ↔
      BumpPointer.Fits wordBoundary s.scratchAddr.toNat (s.scratchAddr.toNat + scratchSize) (lengths ws)) := by
  generalize hs : oddScratch = s
  obtain ⟨⟨hreset, haddr, hnext⟩, htail, _, _⟩ := oddScratch_mapped hs.symm
  have hok : ∃ e, writeScratch 1024 (fun _ => 65) s = .ok s.nextScratchSegment (s.scratched 1024 (fun _ => 65) e) :=
    writeScratch_ok (by decide) fun _ => by rw [hnext]; exact htail
  obtain ⟨e, hrun⟩ := hok
  refine ⟨s, [⟨s, 1024, fun _ => 65, s.nextScratchSegment, s.scratched 1024 (fun _ => 65) e⟩], rfl, ?_⟩
  exact stays_in_scratch_iff hreset (by rw [haddr]; decide) ⟨rfl, hrun, trivial⟩ (by simp)

/-- Two segments of 1024 bytes: the second one starts behind the padding of the first and ends seven bytes
behind the buffer. -/
theorem scratch_overrun : ∃ (s : Sandbox Fixed Unit) (w w' : ScratchWrite Fixed Unit), resetScratch s = .ok () s ∧
    s.scratchAddr = 1 ∧ IsScratchRun s [w, w'] ∧ lengths [w, w'] = [1024, 1024] ∧
      w'.before.tracer.mem 2055 = some 0 ∧ w'.after.tracer.mem 2055 = some 65 ∧ scratchSize ≤ distance 1 2055 ∧
        ¬ StaysInScratch 1 [w, w'] := by
  generalize hs : oddScratch = s
  obtain ⟨⟨hreset, haddr, hnext⟩, htail, htail', hzero⟩ := oddScratch_mapped hs.symm
  have hok : ∃ e, writeScratch 1024 (fun _ => 65) s = .ok s.nextScratchSegment (s.scratched 1024 (fun _ => 65) e) :=
    writeScratch_ok (by decide) fun _ => by rw [hnext]; exact htail
  obtain ⟨e, hrun⟩ := hok
  generalize ht : s.scratched 1024 (fun _ => 65) e = t at hrun
  have hmem : t.tracer.mem = stored s.tracer.mem 1 1024 fun _ => 65 := by
    rw [← ht, ← hnext]
    rfl
  have hnext' : t.nextScratchSegment = 1032 := by
    rw [← ht, scratched_segment, hnext]
    decide
  have hok' : ∃ e, writeScratch 1024 (fun _ => 65) t = .ok t.nextScratchSegment (t.scratched 1024 (fun _ => 65) e) := by
    refine writeScratch_ok (by decide) fun _ => ?_
    rw [hnext', hmem]
    exact wordMapped_stored.2 htail'
  obtain ⟨e', hrun'⟩ := hok'
  have hbefore : t.tracer.mem 2055 = some 0 := by
    rw [hmem, stored_outside (by decide)]
    exact hzero
  have hafter : (t.scratched 1024 (fun _ => 65) e').tracer.mem 2055 = some 65 := by
    have htail'' : TailMapped t.tracer.mem t.nextScratchSegment 1024 := by
      intro _
      rw [hnext', hmem]
      exact wordMapped_stored.2 htail'
    have hlast : (t.scratched 1024 (fun _ => 65) e').tracer.mem (offset t.nextScratchSegment 1023) = some 65 :=
      scratched_last (by decide) (by decide) htail''
    rw [hnext'] at hlast
    exact hlast
  refine ⟨s, ⟨s, 1024, fun _ => 65, s.nextScratchSegment, t⟩, ⟨t, 1024, fun _ => 65, t.nextScratchSegment, _⟩, hreset, haddr,
    ⟨rfl, hrun, rfl, hrun', trivial⟩, rfl, hbefore, hafter, by decide, fun h => ?_⟩
  have hsame : (t.scratched 1024 (fun _ => 65) e').tracer.mem 2055 = t.tracer.mem 2055 :=
    h.inside _ (List.mem_cons_of_mem _ (List.mem_singleton_self _)) 2055 (by decide)
  rw [hafter, hbefore] at hsame
  exact absurd hsame (by decide)

end CodiusSandbox
