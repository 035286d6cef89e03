import CodiusSandbox.Basic
import CodiusSandbox.Lib.LittleEndian
/-!
# `DirentBuilder` (`dirent-builder.cpp`)

The records `getdents` hands out: inode, offset, record length, name, padding, and the type in the last
byte. Both lengths are `unsigned short`.
-/
namespace CodiusSandbox

open LittleEndian

structure DirentBuilder where
  /-- `m_buf`. -/
  buf : Str
  /-- `m_idx`. -/
  idx : Int
  /-- `m_inode`. -/
  inode : Int

/-- `DirentBuilder::DirentBuilder`. -/
def DirentBuilder.new (startIdx : Int) : DirentBuilder := ⟨[], startIdx, 256⟩

/-- What keeps an `append` from returning a record. -/
inductive AppendFault where
  /-- The loop for the record length does not end. -/
  | endless
  /-- `memcpy` writes behind the buffer. -/
  | overrun
deriving DecidableEq, Repr

/-- The number of values the loop's counter takes before it repeats. -/
def paddings : Nat := 2 ^ 13

/-- `while (reclen < min_reclen) reclen += 8`. -/
def padLoop (minReclen : Nat) : Nat → Nat → Option Nat
  | 0, _ => none
  | fuel + 1, reclen =>
    if reclen < minReclen then padLoop minReclen fuel ((reclen + 8) % 2 ^ 16) else some reclen

/-- `DT_REG`. -/
def DT_REG : UInt8 := 8

/-- `DirentBuilder::append`. -/
def DirentBuilder.append (b : DirentBuilder) (name : Str) (type : UInt8) : Except AppendFault DirentBuilder :=
  let minReclen := (8 + 8 + 2 + name.length + 2) % 2 ^ 16
  match padLoop minReclen paddings 24 with
  | none => .error .endless
  | some reclen =>
    if reclen < 18 + name.length then .error .overrun
    else
      let header := toBytes 8 (toWord b.inode).toNat ++ toBytes 8 (toWord b.idx).toNat ++ toBytes 2 reclen
      let record := header ++ name ++ List.replicate (reclen - (18 + name.length)) 0
      .ok ⟨b.buf ++ (record.set (minReclen - 2) 0).set (reclen - 1) type, succInt b.idx, succInt b.inode⟩

/-- `data ()` behind one `append` for each name (`node-filesystem.cpp:153-162`). -/
def direntData (names : List Str) : Except AppendFault Str := do
  let b ← names.foldlM (fun (b : DirentBuilder) name => b.append name DT_REG) (DirentBuilder.new 1)
  return b.buf

end CodiusSandbox
