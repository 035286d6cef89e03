import CodiusSandbox.Lib.Utf8
import CodiusSandbox.NodeFilesystem
import Mathlib.Data.List.TakeWhile
/-!
# The child's output (`sandbox-node-module.cpp:22-52`, `main.js:57-93`)

| here              | there                                                                            |
|-------------------|----------------------------------------------------------------------------------|
| `OutputChannel`   | the two `NodeIPC`s, for `STDOUT_FILENO` and `STDERR_FILENO`                       |
| `ReadReady`       | one call of `NodeIPC::onReadReady`: what `buf` held, and what `read` delivers    |
| `stringNew`       | `String::New (buf)`; V8's decoder is a parameter                                 |
| `Stdio`           | `this.stdio`, as the chunks pushed to each reader                                |

`String::New` ends at a NUL, and each chunk is decoded by itself. So the output arrives as it was written
when it has no NUL and every read starts between two characters, and not otherwise (`output_arrives_iff`).
-/
namespace CodiusSandbox

open Utf8

/-! ## The channels -/

inductive OutputChannel where
  | stdout
  | stderr
deriving DecidableEq

def OutputChannel.dupAs : OutputChannel → Int
  | .stdout => 1
  | .stderr => 2

/-- `sizeof (buf)` in `onReadReady`. -/
def sizeofReadBuf : Nat := 1024

structure ReadReady where
  channel : OutputChannel
  /-- What `buf` holds before. -/
  stack : Buffer
  bytes : Str
  fits : bytes.length ≤ sizeofReadBuf - 1

/-- `this.stdio`, by index. -/
abbrev Stdio := Int → List (List Char)

/-- `Sandbox.prototype.onData`. -/
def onData (fd : Int) (chunk : List Char) (stdio : Stdio) : Stdio := fun i =>
  if i = fd then stdio i ++ [chunk] else stdio i

/-- `String::New (buf)`. -/
def stringNew (decode : Str → List Char) (buf : Buffer) : List Char := decode (cString buf sizeofReadBuf [])

/-- The chunk that is made of a read. -/
def ReadReady.chunk (decode : Str → List Char) (e : ReadReady) : List Char :=
  let buf := e.stack.putAt 0 e.bytes
  let buf := buf.putAt e.bytes.length [0]
  stringNew decode buf

/-- `NodeIPC::onReadReady`. -/
def NodeIPC.onReadReady (decode : Str → List Char) (e : ReadReady) (stdio : Stdio) : Stdio :=
  onData e.channel.dupAs (e.chunk decode) stdio

/-- The chunks behind a sequence of reads from both channels. -/
def outputOf (decode : Str → List Char) (events : List ReadReady) : Stdio :=
  events.foldl (fun stdio e => NodeIPC.onReadReady decode e stdio) fun _ => []

/-- What was read from a channel. -/
def readsOf (channel : OutputChannel) (events : List ReadReady) : List Str :=
  (events.filter fun e => e.channel = channel).map ReadReady.bytes

/-! ## Chunks -/

section
variable {decode : Str → List Char} {channel : OutputChannel} {events : List ReadReady}

theorem dupAs_injective {c c' : OutputChannel} (h : c.dupAs = c'.dupAs) : c = c' := by
  cases c <;> cases c' <;> simp_all [OutputChannel.dupAs]

/-- The NUL that is put behind the bytes ends the string, if none does before. -/
theorem cString_read (stack : Buffer) {bytes : Str} (h : bytes.length ≤ sizeofReadBuf - 1) :
    cString ((stack.putAt 0 bytes).putAt bytes.length [0]) sizeofReadBuf [] = bytes.takeWhile (· ≠ 0) := by
  have hle : bytes.length ≤ 1023 := h
  have hbuf : (List.range 1024).map ((stack.putAt 0 bytes).putAt bytes.length [0]) =
      bytes ++ 0 :: (List.range (1023 - bytes.length)).map fun i => stack (bytes.length + 1 + i) := by
    apply List.ext_getElem
    · simp only [List.length_map, List.length_range, List.length_append, List.length_cons]
      omega
    · intro i hi _
      rw [List.getElem_map, List.getElem_range, Buffer.putAt, List.getElem_append]
      by_cases hlt : i < bytes.length
      · rw [dif_pos hlt, if_neg (by omega)]
        simp [Buffer.putAt, hlt]
      · rw [dif_neg hlt, if_pos (by omega)]
        obtain ⟨k, rfl⟩ : ∃ k, i = bytes.length + k := ⟨i - bytes.length, by omega⟩
        simp only [Nat.add_sub_cancel_left]
        cases k with
        | zero => rfl
        | succ k => simp [Buffer.putAt, Nat.add_assoc, Nat.add_comm 1 k]
  have hcString : cString ((stack.putAt 0 bytes).putAt bytes.length [0]) sizeofReadBuf [] =
      ((List.range 1024).map ((stack.putAt 0 bytes).putAt bytes.length [0]) ++ []).takeWhile (· ≠ 0) := rfl
  rw [hcString, List.append_nil, hbuf, List.takeWhile_append]
  split
  · rename_i hall
    rw [List.takeWhile_cons_of_neg (by simp), List.append_nil]
    exact ((List.takeWhile_prefix _).eq_of_length hall).symm
  · rfl

theorem chunk_eq (e : ReadReady) : e.chunk decode = decode (e.bytes.takeWhile (· ≠ 0)) := by
  rw [← cString_read e.stack e.fits]
  rfl

/-- Each channel's chunks are those of its own reads. -/
theorem outputOf_eq (decode : Str → List Char) (channel : OutputChannel) (events : List ReadReady) :
    outputOf decode events channel.dupAs =
      (readsOf channel events).map fun bytes => decode (bytes.takeWhile (· ≠ 0)) := by
  have hfold (stdio : Stdio) : events.foldl (fun stdio e => NodeIPC.onReadReady decode e stdio) stdio channel.dupAs =
      stdio channel.dupAs ++ (readsOf channel events).map fun bytes => decode (bytes.takeWhile (· ≠ 0)) := by
    induction events generalizing stdio with
    | nil => simp [readsOf]
    | cons e events ih =>
      rw [List.foldl_cons, ih, NodeIPC.onReadReady, onData, chunk_eq]
      by_cases heq : e.channel = channel
      · simp [readsOf, heq]
      · have hne : channel.dupAs ≠ e.channel.dupAs := fun h => heq (dupAs_injective h).symm
        simp [readsOf, heq, hne]
  rw [outputOf, hfold, List.nil_append]

/-! ## What arrives -/

theorem takeWhile_of_noNul {bytes : Str} (h : 0 ∉ bytes) : bytes.takeWhile (· ≠ 0) = bytes :=
  List.takeWhile_eq_self_iff.2 (all_ne_zero h)

theorem output_noNul (h : 0 ∉ (readsOf channel events).flatten) :
    outputOf decode events channel.dupAs = (readsOf channel events).map decode := by
  rw [outputOf_eq]
  apply List.map_congr_left
  intro bytes hbytes
  rw [takeWhile_of_noNul fun h0 => h (List.mem_flatten.2 ⟨bytes, hbytes, h0⟩)]

theorem nul_not_mem_output (hd : Lossy decode) : nul ∉ (outputOf decode events channel.dupAs).flatten := by
  rw [outputOf_eq]
  intro hnul
  obtain ⟨chunk, hchunk, hnul⟩ := List.mem_flatten.1 hnul
  obtain ⟨bytes, _, rfl⟩ := List.mem_map.1 hchunk
  refine hd.nul_not_mem (fun h0 => ?_) hnul
  have hne := List.mem_takeWhile_imp h0
  simp at hne

/-- What the child writes is what its reader gets where it has no NUL and no read starts inside a character. -/
theorem output_arrives_iff {cs : List Char} (hd : Lossy decode) (hcs : (readsOf channel events).flatten = encode cs) :
    (outputOf decode events channel.dupAs).flatten = cs ↔
      0 ∉ (readsOf channel events).flatten ∧ ∀ bytes ∈ readsOf channel events, StartsWhole bytes := by
  constructor
  · intro heq
    have h0 : 0 ∉ (readsOf channel events).flatten := by
      intro h0
      rw [hcs, zero_mem_encode_iff, ← heq] at h0
      exact nul_not_mem_output hd h0
    rw [output_noNul h0] at heq
    exact ⟨h0, (hd.flatten_decode_iff hcs).1 heq⟩
  · rintro ⟨h0, hwhole⟩
    rw [output_noNul h0]
    exact (hd.flatten_decode_iff hcs).2 hwhole

end

/-! ## Output that does not -/

theorem fits_three (a b c : UInt8) : [a, b, c].length ≤ sizeofReadBuf - 1 := Nat.le_of_ble_eq_true rfl

theorem fits_one (a : UInt8) : [a].length ≤ sizeofReadBuf - 1 := Nat.le_of_ble_eq_true rfl

/-- A read of three bytes. -/
def readThree (channel : OutputChannel) (a b c : UInt8) : ReadReady := ⟨channel, fun _ => 65, [a, b, c], fits_three a b c⟩

/-- A read of one byte. -/
def readOneByte (channel : OutputChannel) (a : UInt8) : ReadReady := ⟨channel, fun _ => 65, [a], fits_one a⟩

/-- U+00E9, in two bytes. -/
def eAcute : Char := Char.ofNat 233

/-- Of "a", NUL, "b" in one read the "a" arrives; a character of two bytes in two reads does not arrive. -/
theorem output_damaged :
    Lossy replacing ∧
    (readsOf .stdout [readThree .stdout 97 0 98]).flatten = encode ['a', nul, 'b'] ∧
    (readsOf .stderr [readOneByte .stderr 195, readOneByte .stderr 169]).flatten = encode [eAcute] ∧
    ∀ decode, Lossy decode →
      (outputOf decode [readThree .stdout 97 0 98] OutputChannel.stdout.dupAs).flatten = ['a'] ∧
      (outputOf decode [readOneByte .stderr 195, readOneByte .stderr 169] OutputChannel.stderr.dupAs).flatten ≠ [eAcute] := by
  have hsplit : (readsOf .stderr [readOneByte .stderr 195, readOneByte .stderr 169]).flatten = encode [eAcute] := by decide
  refine ⟨lossy_replacing, by decide, hsplit, fun decode hd => ⟨?_, fun heq => ?_⟩⟩
  · have hreads : readsOf .stdout [readThree .stdout 97 0 98] = [[97, 0, 98]] := rfl
    have hcut : ([97, 0, 98] : Str).takeWhile (· ≠ 0) = encode ['a'] := by decide
    have hout := outputOf_eq decode .stdout [readThree .stdout 97 0 98]
    rw [hreads, List.map_singleton, hcut, hd.decode_encode] at hout
    rw [hout]
    rfl
  · have h0 : 0 ∉ (readsOf .stderr [readOneByte .stderr 195, readOneByte .stderr 169]).flatten := by decide
    rw [output_noNul h0] at heq
    have hwhole := (hd.flatten_decode_iff hsplit).1 heq [169] (by decide) 169 rfl
    exact absurd hwhole (by decide)

/-- Both channels, the character in one read. -/
theorem output_arrives_whole :
    Lossy replacing ∧
      (readsOf .stdout [readOneByte .stdout 97, readOneByte .stderr 0, readThree .stdout 98 195 169]).flatten =
        encode ['a', 'b', eAcute] ∧
      ((outputOf replacing [readOneByte .stdout 97, readOneByte .stderr 0, readThree .stdout 98 195 169]
          OutputChannel.stdout.dupAs).flatten = ['a', 'b', eAcute] ↔
        0 ∉ (readsOf .stdout [readOneByte .stdout 97, readOneByte .stderr 0, readThree .stdout 98 195 169]).flatten ∧
          ∀ bytes ∈ readsOf .stdout [readOneByte .stdout 97, readOneByte .stderr 0, readThree .stdout 98 195 169],
            StartsWhole bytes) := by
  have hcs : (readsOf .stdout [readOneByte .stdout 97, readOneByte .stderr 0, readThree .stdout 98 195 169]).flatten =
      encode ['a', 'b', eAcute] := by decide
  exact ⟨lossy_replacing, hcs, output_arrives_iff lossy_replacing hcs⟩

end CodiusSandbox
