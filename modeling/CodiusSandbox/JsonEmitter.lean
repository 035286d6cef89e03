import CodiusSandbox.JsonParser
/-!
# The emitter of `json.c`

| here                                       | there                                                                  |
|--------------------------------------------|------------------------------------------------------------------------|
| `emitString`, `emitValue`, …                | `emit_string`, `emit_value`, … (`json.c:976-1242`)                      |
| `escapeUnicode`                            | `escape_unicode` in `emit_string`, which is `false` there              |
| `emitCharacter`                            | one turn of the loop of `emit_string`, up to where `out` learns of it  |
| `jsonStringify`, `jsonEncode`, `jsonEncodeString` | `json_stringify`, `json_encode`, `json_encode_string` (`json.c:379-405`) |

The nodes are read as `readValue` reads them, and a node that has a `next` is one that has something behind
it in the list of the children.
-/
namespace CodiusSandbox.JsonText

open JsonGrammar

/-! ## Strings and numbers -/

/-- The rest of the text, and the buffer with the character. -/
def emitCharacter (escapeUnicode : Bool) (s : Str) (sb : SB) : Except ScanFault (Str × SB) := do
  let c ← byteAt s 0
  if c = quote then return (s.drop 1, ← sb.pushAll [backslash, quote])
  else if c = backslash then return (s.drop 1, ← sb.pushAll [backslash, backslash])
  else if c = 8 then return (s.drop 1, ← sb.pushAll [backslash, 98])
  else if c = 12 then return (s.drop 1, ← sb.pushAll [backslash, 102])
  else if c = 10 then return (s.drop 1, ← sb.pushAll [backslash, 110])
  else if c = 13 then return (s.drop 1, ← sb.pushAll [backslash, 114])
  else if c = 9 then return (s.drop 1, ← sb.pushAll [backslash, 116])
  else
    let len ← utf8ValidateCz s
    if len = 0 then throw .assertion
    else if c < 0x1F ∨ (0x80 ≤ c ∧ escapeUnicode = true) then
      let (unicode, n) ← utf8ReadChar s
      if unicode ≤ 0xFFFF then return (s.drop n, ← sb.pushAll (backslash :: 117 :: writeHex16 unicode))
      else
        let (uc, lc) ← toSurrogatePair unicode
        return (s.drop n, ← sb.pushAll (backslash :: 117 :: (writeHex16 uc ++ backslash :: 117 :: writeHex16 lc)))
    else return (s.drop len, ← sb.pushAll (s.take len))

/-- The loop of `emit_string`. -/
def emitStringLoop (escapeUnicode : Bool) : Nat → Str → SB → Except ScanFault SB
  | 0, _, _ => throw .fuel
  | fuel + 1, s, sb => do
    if (← byteAt s 0) = 0 then return sb
    else
      let (s, sb) ← emitCharacter escapeUnicode s sb
      emitStringLoop escapeUnicode fuel s (← sbNeed sb 14)

def emitStringWith (escapeUnicode : Bool) (sb : SB) (str : Str) : Except ScanFault SB := do
  let s := str ++ [0]
  if ← utf8Validate s then
    let sb ← sbNeed sb 14
    let sb ← sb.push quote
    let sb ← emitStringLoop escapeUnicode s.length s sb
    sb.push quote
  else throw .assertion

/-- `emit_string` (`json.c:1108`). -/
def emitString (sb : SB) (str : Str) : Except ScanFault SB := emitStringWith false sb str

/-- `number_is_valid` (`json.c:1249`). -/
def numberIsValid (lib : NumberLib) (num : Str) : Except ScanFault Bool :=
  match parseNumber lib false (num ++ [0]) with
  | .ok (some _) s => do return (← byteAt s 0) = 0
  | .ok none _ => .ok false
  | .error e _ => .error e

/-- `emit_number` (`json.c:1227`). -/
def emitNumber (lib : NumberLib) (sb : SB) (num : Word) : Except ScanFault SB := do
  let buf := lib.sprintf16g num
  if ← numberIsValid lib buf then sbPuts sb buf
  else sbPuts sb nullText

/-! ## Values -/

mutual

/-- `emit_value` (`json.c:976`), with `emit_array` and `emit_object`. -/
def emitValue (lib : NumberLib) (sb : SB) : Json → Except ScanFault SB
  | .null => sbPuts sb nullText
  | .bool b => sbPuts sb (if b then trueText else falseText)
  | .string s => emitString sb s
  | .number bits => emitNumber lib sb bits
  | .array elements => do
    let sb ← sbPutc sb openBracket
    let sb ← emitElements lib sb elements
    sbPutc sb closeBracket
  | .object members => do
    let sb ← sbPutc sb openBrace
    let sb ← emitMembers lib sb members
    sbPutc sb closeBrace

/-- The loop of `emit_array`. -/
def emitElements (lib : NumberLib) (sb : SB) : List Json → Except ScanFault SB
  | [] => .ok sb
  | [element] => emitValue lib sb element
  | element :: next :: rest => do
    let sb ← emitValue lib sb element
    let sb ← sbPutc sb comma
    emitElements lib sb (next :: rest)

/-- The loop of `emit_object`. -/
def emitMembers (lib : NumberLib) (sb : SB) : List (Str × Json) → Except ScanFault SB
  | [] => .ok sb
  | [(key, value)] => do
    let sb ← emitString sb key
    let sb ← sbPutc sb colon
    emitValue lib sb value
  | (key, value) :: next :: rest => do
    let sb ← emitString sb key
    let sb ← sbPutc sb colon
    let sb ← emitValue lib sb value
    let sb ← sbPutc sb comma
    emitMembers lib sb (next :: rest)

end

/-- `for (i = 0; i < n; i++) sb_puts (out, space)`. -/
def emitSpace (space : Str) : Nat → SB → Except ScanFault SB
  | 0, sb => .ok sb
  | n + 1, sb => do emitSpace space n (← sbPuts sb space)

mutual

/-- `emit_value_indented` (`json.c:1003`), with `emit_array_indented` and `emit_object_indented`. -/
def emitValueIndented (lib : NumberLib) (space : Str) (indentLevel : Nat) (sb : SB) : Json → Except ScanFault SB
  | .null => sbPuts sb nullText
  | .bool b => sbPuts sb (if b then trueText else falseText)
  | .string s => emitString sb s
  | .number bits => emitNumber lib sb bits
  | .array [] => sbPuts sb [openBracket, closeBracket]
  | .array (element :: rest) => do
    let sb ← sbPuts sb [openBracket, 10]
    let sb ← emitElementsIndented lib space indentLevel sb (element :: rest)
    let sb ← emitSpace space indentLevel sb
    sbPutc sb closeBracket
  | .object [] => sbPuts sb [openBrace, closeBrace]
  | .object (member :: rest) => do
    let sb ← sbPuts sb [openBrace, 10]
    let sb ← emitMembersIndented lib space indentLevel sb (member :: rest)
    let sb ← emitSpace space indentLevel sb
    sbPutc sb closeBrace

/-- The loop of `emit_array_indented`. -/
def emitElementsIndented (lib : NumberLib) (space : Str) (indentLevel : Nat) (sb : SB) :
    List Json → Except ScanFault SB
  | [] => .ok sb
  | element :: rest => do
    let sb ← emitSpace space (indentLevel + 1) sb
    let sb ← emitValueIndented lib space (indentLevel + 1) sb element
    let sb ← sbPuts sb (if rest.isEmpty then [10] else [comma, 10])
    emitElementsIndented lib space indentLevel sb rest

/-- The loop of `emit_object_indented`. -/
def emitMembersIndented (lib : NumberLib) (space : Str) (indentLevel : Nat) (sb : SB) :
    List (Str × Json) → Except ScanFault SB
  | [] => .ok sb
  | (key, value) :: rest => do
    let sb ← emitSpace space (indentLevel + 1) sb
    let sb ← emitString sb key
    let sb ← sbPuts sb [colon, 32]
    let sb ← emitValueIndented lib space (indentLevel + 1) sb value
    let sb ← sbPuts sb (if rest.isEmpty then [10] else [comma, 10])
    emitMembersIndented lib space indentLevel sb rest

end

/-- `json_stringify`; `space` may be null. -/
def jsonStringify (lib : NumberLib) (space : Option Str) (v : Json) : Except ScanFault Str := do
  match space with
  | some space => sbFinish (← emitValueIndented lib space 0 sbInit v)
  | none => sbFinish (← emitValue lib sbInit v)

def jsonEncode (lib : NumberLib) (v : Json) : Except ScanFault Str := jsonStringify lib none v

def jsonEncodeString (str : Str) : Except ScanFault Str := do sbFinish (← emitString sbInit str)

end CodiusSandbox.JsonText
