import CodiusSandbox.StringBuffer
/-!
# The parser of `json.c`

| here                                  | there                                                                        |
|---------------------------------------|------------------------------------------------------------------------------|
| `Read`                                | a function that takes `const char **sp`; its state is the memory from `*sp` on |
| `look`, `next`, `step`                | `*s`, `*s++`, `s++`                                                          |
| `none`, `some out`                    | `return false`, and `return true` with `out` in `*out`                       |
| `written out a`                       | `a` for an `out` that is not null, else nothing                              |
| `NumberLib`                           | `strtod` and `sprintf ("%.16g")`, on the bits of a `double`                   |
| `Scan`                                | a function that also makes and deletes nodes                                 |
| `parseString`, `parseValue`, …        | `parse_string`, `parse_value`, … (`json.c:623-974`)                           |
| `jsonDecode`, `jsonValidate`          | `json_decode`, `json_validate` (`json.c:361`, `433`)                          |

Where a function returns `false` its caller never looks at `s` again. The text of a string that is given up
is freed with it and has no cell here.
-/
namespace CodiusSandbox.JsonText

open JsonGrammar Wp

/-- What is stored through a pointer `out`, when it is not null. -/
def written {α : Type} (out : Bool) (a : α) : Option α := if out then some a else none

/-! ## Reading -/

abbrev Read := EStateM ScanFault Str

def lift {α σ : Type} (x : Except ScanFault α) : EStateM ScanFault σ α := fun s =>
  match x with
  | .ok a => .ok a s
  | .error e => .error e s

def look : Read UInt8 := do lift (byteAt (← get) 0)

def step : Read Unit := modify fun s => s.drop 1

def next : Read UInt8 := do
  let c ← look
  step
  return c

/-- `while (p (*s)) s++`. -/
def skipWhile (p : UInt8 → Bool) : Str → Except ScanFault Str
  | [] => .error .overrun
  | c :: s => if p c then skipWhile p s else .ok (c :: s)

def isSpace (c : UInt8) : Bool := c == 9 || c == 10 || c == 13 || c == 32

def isDigit (c : UInt8) : Bool := 48 ≤ c && c ≤ 57

/-- `skip_space` (`json.c:968`). -/
def skipSpace : Read Unit := do set (← lift (skipWhile isSpace (← get)))

/-- `expect_literal` (`json.c:1254`). -/
def expectLiteral : Str → Read Bool
  | [] => return true
  | c :: str => do
    if (← next) = c then expectLiteral str
    else return false

/-! ## Numbers -/

/-- `if (!is_digit (*s)) return false; do { s++; } while (is_digit (*s));` -/
def parseDigits : Read Bool := do
  if isDigit (← look) then
    set (← lift (skipWhile isDigit (← get)))
    return true
  else return false

/-- `if (p (*s)) s++`. -/
def stepIf (p : UInt8 → Bool) : Read Unit := do
  if p (← look) then step
  else return ()

def parseIntPart : Read Bool := do
  if (← look) = 48 then
    step
    return true
  else parseDigits

def parseFraction : Read Bool := do
  if (← look) = point then
    step
    parseDigits
  else return true

def parseExponent : Read Bool := do
  let c ← look
  if c = 69 ∨ c = 101 then
    step
    stepIf fun c => c == 43 || c == minus
    parseDigits
  else return true

/-- What `json.c` takes from the C library for a `double`. -/
structure NumberLib where
  strtod : Str → Word
  /-- What `sprintf (buf, "%.16g", num)` writes. -/
  sprintf16g : Word → Str
  /-- `strtod` ends where the number does. -/
  strtod_token : ∀ token rest, Number token → Delimited rest → strtod (token ++ rest) = strtod token
  /-- `sprintf` writes a string. -/
  sprintf16g_noNul : ∀ num, 0 ∉ sprintf16g num
  /-- The string has room in `char buf[64]`. -/
  sprintf16g_fits : ∀ num, (sprintf16g num).length < 64

/-- `parse_number` (`json.c:920`). -/
def parseNumber (lib : NumberLib) (out : Bool) : Read (Option (Option Word)) := do
  let start ← get
  stepIf (· == minus)
  if ← parseIntPart then
    if ← parseFraction then
      if ← parseExponent then return some (written out (lib.strtod start))
      else return none
    else return none
  else return none

/-! ## Strings -/

/-- `c` as a hexadecimal digit. -/
def hexTmp (c : UInt8) : Option Nat :=
  if 48 ≤ c ∧ c ≤ 57 then some (c - 48).toNat
  else if 65 ≤ c ∧ c ≤ 70 then some ((c - 65).toNat + 10)
  else if 97 ≤ c ∧ c ≤ 102 then some ((c - 97).toNat + 10)
  else none

/-- The loop of `parse_hex16`, for `n` digits more. -/
def parseHex16Loop : Nat → Nat → Read (Option Nat)
  | 0, ret => return some ret
  | n + 1, ret => do
    match hexTmp (← next) with
    | some tmp => parseHex16Loop n (((ret <<< 4) + tmp) % 2 ^ 16)
    | none => return none

/-- `parse_hex16` (`json.c:1270`). -/
def parseHex16 : Read (Option Nat) := parseHex16Loop 4 0

/-- `b += utf8_write_char (unicode, b)`. -/
def writeChar (sb : SB) (unicode : Nat) : Read (Option SB) := do
  return some (← lift (sb.pushAll (← lift (utf8WriteChar unicode))))

/-- The case `'u'` in `parse_string`. -/
def parseUnicode (sb : SB) : Read (Option SB) := do
  match ← parseHex16 with
  | none => return none
  | some uc =>
    if 0xD800 ≤ uc ∧ uc ≤ 0xDFFF then
      if (← next) ≠ backslash then return none
      else if (← next) ≠ 117 then return none
      else
        match ← parseHex16 with
        | none => return none
        | some lc =>
          match fromSurrogatePair uc lc with
          | none => return none
          | some unicode => writeChar sb unicode
    else if uc = 0 then return none
    else writeChar sb uc

/-- The `switch` in `parse_string`. -/
def parseEscape (sb : SB) : Read (Option SB) := do
  let c ← next
  if c = quote ∨ c = backslash ∨ c = 47 then return some (← lift (sb.push c))
  else if c = 98 then return some (← lift (sb.push 8))
  else if c = 102 then return some (← lift (sb.push 12))
  else if c = 110 then return some (← lift (sb.push 10))
  else if c = 114 then return some (← lift (sb.push 13))
  else if c = 116 then return some (← lift (sb.push 9))
  else if c = 117 then parseUnicode sb
  else return none

/-- `while (len--) *b++ = *s++`. -/
def copyBytes : Nat → SB → Read SB
  | 0, sb => return sb
  | len + 1, sb => do
    let c ← next
    copyBytes len (← lift (sb.push c))

/-- One turn of the loop of `parse_string`, up to where `sb` learns of the bytes. -/
def parseCharacter (sb : SB) : Read (Option SB) := do
  let start ← get
  let c ← next
  if c = backslash then parseEscape sb
  else if c ≤ 0x1F then return none
  else
    -- `s--`
    set start
    let len ← lift (utf8ValidateCz start)
    if len = 0 then return none
    else return some (← copyBytes len sb)

/-- `throwaway_buffer`. -/
def throwawayBuffer : SB := ⟨[], 4⟩

/-- Where the next character goes. -/
def nextBuffer (out : Bool) (sb : SB) : Except ScanFault SB :=
  if out then sbNeed sb 4 else .ok throwawayBuffer

/-- The loop of `parse_string`. -/
def parseStringLoop (out : Bool) : Nat → SB → Read (Option SB)
  | 0, _ => throw .fuel
  | fuel + 1, sb => do
    if (← look) = quote then return some sb
    else
      match ← parseCharacter sb with
      | none => return none
      | some sb => do parseStringLoop out fuel (← lift (nextBuffer out sb))

/-- `parse_string` (`json.c:793`), with fuel for every byte. -/
def parseString (out : Bool) : Read (Option (Option Str)) := do
  if (← next) ≠ quote then return none
  else
    let sb ← lift (nextBuffer out sbInit)
    match ← parseStringLoop out (← get).length sb with
    | none => return none
    | some sb =>
      step
      if out then return some (some (← lift (sbFinish sb)))
      else return some none

/-! ## Values -/

structure Scanner where
  s : Str
  heap : Heap

abbrev Scan := EStateM ScanFault Scanner

def onText {α : Type} (x : Read α) : Scan α := fun t =>
  match x t.s with
  | .ok a s => .ok a { t with s := s }
  | .error e s => .error e { t with s := s }

def onNodes {α : Type} (x : HeapM α) : Scan α := fun t =>
  match x t.heap with
  | .ok a h => .ok a { t with heap := h }
  | .error e h => .error (.node e) { t with heap := h }

/-- The new node, if there is something to put in one. -/
def mkOut : Option JsonContents → Scan (Option Ptr)
  | some contents => do return some (← onNodes (mknode contents))
  | none => return none

/-- `append_member` (`json.c:562`). -/
def appendMember (object : Ptr) (key : Str) (value : Ptr) : HeapM Unit := do
  let v ← deref value
  store value { v with key := some key }
  appendNode object value

/-- The label `failure`. -/
def failure (ret : Option Ptr) : Scan (Option (Option Ptr)) := do
  onNodes (jsonDelete ret)
  return none

/-- `if (out) json_append_element (ret, element)`. -/
def addElement : Option Ptr → Option Ptr → Scan Unit
  | some ret, some element => onNodes (jsonAppendElement ret element)
  | _, _ => return ()

/-- `if (out) append_member (ret, key, value)`. -/
def addMember : Option Ptr → Option Str → Option Ptr → Scan Unit
  | some ret, some key, some value => onNodes (appendMember ret key value)
  | _, _, _ => return ()

/-- The cases of a literal in `parse_value`. -/
def parseLiteral (out : Bool) (literal : Str) (contents : JsonContents) : Scan (Option (Option Ptr)) := do
  if ← onText (expectLiteral literal) then return some (← mkOut (written out contents))
  else return none

/-- The case of a quote in `parse_value`. -/
def parseStringValue (out : Bool) : Scan (Option (Option Ptr)) := do
  match ← onText (parseString out) with
  | some str => return some (← mkOut (str.map .string))
  | none => return none

/-- The default case in `parse_value`. -/
def parseNumberValue (lib : NumberLib) (out : Bool) : Scan (Option (Option Ptr)) := do
  match ← onText (parseNumber lib out) with
  | some num => return some (← mkOut (num.map .number))
  | none => return none

mutual

/-- `parse_value` (`json.c:623`). -/
def parseValue (lib : NumberLib) (out : Bool) : Nat → Scan (Option (Option Ptr))
  | 0 => throw .fuel
  | fuel + 1 => do
    let c ← onText look
    if c = 110 then parseLiteral out nullText .null
    else if c = 102 then parseLiteral out falseText (.bool false)
    else if c = 116 then parseLiteral out trueText (.bool true)
    else if c = quote then parseStringValue out
    else if c = openBracket then parseArray lib out fuel
    else if c = openBrace then parseObject lib out fuel
    else parseNumberValue lib out

/-- `parse_array` (`json.c:693`). -/
def parseArray (lib : NumberLib) (out : Bool) : Nat → Scan (Option (Option Ptr))
  | 0 => throw .fuel
  | fuel + 1 => do
    let ret ← mkOut (written out (.array []))
    if (← onText next) ≠ openBracket then failure ret
    else
      onText skipSpace
      if (← onText look) = closeBracket then
        onText step
        return some ret
      else parseElements lib out fuel ret

/-- The loop of `parse_array`. -/
def parseElements (lib : NumberLib) (out : Bool) : Nat → Option Ptr → Scan (Option (Option Ptr))
  | 0, _ => throw .fuel
  | fuel + 1, ret => do
    match ← parseValue lib out fuel with
    | none => failure ret
    | some element =>
      onText skipSpace
      addElement ret element
      if (← onText look) = closeBracket then
        onText step
        return some ret
      else if (← onText next) ≠ comma then failure ret
      else
        onText skipSpace
        parseElements lib out fuel ret

/-- `parse_object` (`json.c:737`). -/
def parseObject (lib : NumberLib) (out : Bool) : Nat → Scan (Option (Option Ptr))
  | 0 => throw .fuel
  | fuel + 1 => do
    let ret ← mkOut (written out (.object []))
    if (← onText next) ≠ openBrace then failure ret
    else
      onText skipSpace
      if (← onText look) = closeBrace then
        onText step
        return some ret
      else parseMembers lib out fuel ret

/-- The loop of `parse_object`. -/
def parseMembers (lib : NumberLib) (out : Bool) : Nat → Option Ptr → Scan (Option (Option Ptr))
  | 0, _ => throw .fuel
  | fuel + 1, ret => do
    match ← onText (parseString out) with
    | none => failure ret
    | some key =>
      onText skipSpace
      if (← onText next) ≠ colon then failure ret
      else
        onText skipSpace
        match ← parseValue lib out fuel with
        | none => failure ret
        | some value =>
          onText skipSpace
          addMember ret key value
          if (← onText look) = closeBrace then
            onText step
            return some ret
          else if (← onText next) ≠ comma then failure ret
          else
            onText skipSpace
            parseMembers lib out fuel ret

end

/-! ## Entry points -/

/-- Enough steps for a text: four for every byte. -/
def parseFuel (s : Str) : Nat := 4 * s.length

/-- `json_decode`. -/
def jsonDecode (lib : NumberLib) : Scan (Option Ptr) := do
  let fuel := parseFuel (← get).s
  onText skipSpace
  match ← parseValue lib true fuel with
  | none => return none
  | some ret =>
    onText skipSpace
    if (← onText look) ≠ 0 then
      onNodes (jsonDelete ret)
      return none
    else return ret

/-- `json_validate`. -/
def jsonValidate (lib : NumberLib) : Scan Bool := do
  let fuel := parseFuel (← get).s
  onText skipSpace
  match ← parseValue lib false fuel with
  | none => return false
  | some _ =>
    onText skipSpace
    if (← onText look) ≠ 0 then return false
    else return true

end CodiusSandbox.JsonText
