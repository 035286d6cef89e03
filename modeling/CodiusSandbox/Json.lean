import CodiusSandbox.Basic
import CodiusSandbox.Lib.TreeHeap
import CodiusSandbox.Lib.Wp
/-!
# JSON nodes (`json.c`, `json.h`)

| here | there |
| --- | --- |
| `Json`                     | the value a tree of nodes stands for; a `double` is its 64 bits |
| `JsonNode`                 | `struct JsonNode` (`json.h:41`): `contents` is the tag and the union, with the list of the children for `head`, `tail`, `prev` and `next` |
| `Heap`                     | the nodes that were allocated and are not freed; an address is not used again |
| `jsonDelete`, …            | `json_delete`, … |
| `JsonCodec`                | the text side of `json_encode` and `json_decode` |

A function that walks down a tree takes as fuel what it may recurse.
-/
namespace CodiusSandbox

open TreeHeap Wp

/-! ## Values and nodes -/

inductive Json where
  | null
  | bool (b : Bool)
  | string (s : Str)
  | number (bits : Word)
  | array (elements : List Json)
  | object (members : List (Str × Json))

abbrev Ptr := Nat

/-- The tag of a node and its union. -/
inductive JsonContents where
  | null
  | bool (b : Bool)
  | string (s : Str)
  | number (bits : Word)
  | array (children : List Ptr)
  | object (children : List Ptr)
deriving DecidableEq, Repr

def JsonContents.children : JsonContents → List Ptr
  | .array children | .object children => children
  | _ => []

def JsonContents.withChildren : JsonContents → List Ptr → JsonContents
  | .array _, children => .array children
  | .object _, children => .object children
  | contents, _ => contents

/-- The parent, the key in a parent that is an object, and the contents. -/
abbrev JsonNode := Cell JsonContents (Option Str)

def Json.contents : Json → List Ptr → JsonContents
  | .null, _ => .null
  | .bool b, _ => .bool b
  | .string s, _ => .string s
  | .number bits, _ => .number bits
  | .array _, children => .array children
  | .object _, children => .object children

/-- The children of a value; the elements of an array have no key. -/
def Json.children : Json → List (Option Str × Json)
  | .array elements => elements.map fun e => (none, e)
  | .object members => members.map fun e => (some e.1, e.2)
  | _ => []

instance : Layout Json JsonContents (Option Str) := ⟨Json.contents, Json.children⟩

/-! ## The heap -/

/-- What ends a C function without a result. -/
inductive Fault where
  /-- A member of a null pointer. -/
  | nullDeref
  /-- A node that was freed. -/
  | useAfterFree
  /-- A member of the union that the tag does not stand for. -/
  | wrongTag
  /-- A failing `assert`. -/
  | assertion
  /-- `abort ()`. -/
  | abort
  /-- `exit ()`. -/
  | exit
  /-- A write behind a block. -/
  | overrun
  /-- Recursion deeper than the fuel. -/
  | fuel
deriving DecidableEq, Repr

structure Heap where
  nodes : Store JsonContents (Option Str)
  /-- Where the next node goes. -/
  next : Nat

def Heap.empty : Heap := ⟨fun _ => none, 1⟩

abbrev HeapM := EStateM Fault Heap

/-- A node through a pointer that is not null. -/
def deref (p : Ptr) : HeapM JsonNode := fun h =>
  match h.nodes p with
  | some node => .ok node h
  | none => .error .useAfterFree h

def store (p : Ptr) (node : JsonNode) : HeapM Unit :=
  modify fun h => { h with nodes := Function.update h.nodes p (some node) }

def free (p : Ptr) : HeapM Unit :=
  modify fun h => { h with nodes := Function.update h.nodes p none }

/-! ## Construction -/

/-- `mknode` and the `json_mk*` functions on it (`json.c:486-534`). -/
def mknode (contents : JsonContents) : HeapM Ptr := do
  let h ← get
  set { h with nodes := Function.update h.nodes h.next (some ⟨none, none, contents⟩), next := h.next + 1 }
  return h.next

def jsonMknull : HeapM Ptr := mknode .null
def jsonMkstring (s : Str) : HeapM Ptr := mknode (.string s)
def jsonMkobject : HeapM Ptr := mknode (.object [])

/-- `append_node` (`json.c:536`). -/
def appendNode (parent child : Ptr) : HeapM Unit := do
  let c ← deref child
  store child { c with parent := some parent }
  let p ← deref parent
  store parent { p with contents := p.contents.withChildren (p.contents.children ++ [child]) }

/-- `json_append_element` (`json.c:568`). -/
def jsonAppendElement (array element : Ptr) : HeapM Unit := do
  match (← deref array).contents with
  | .array _ =>
    if (← deref element).parent = none then appendNode array element
    else throw .assertion
  | _ => throw .assertion

/-- `json_append_member` (`json.c:584`). -/
def jsonAppendMember (object : Ptr) (key : Str) (value : Ptr) : HeapM Unit := do
  match (← deref object).contents with
  | .object _ =>
    let v ← deref value
    if v.parent = none then
      store value { v with key := some key }
      appendNode object value
    else throw .assertion
  | _ => throw .assertion

/-! ## Removal -/

/-- `json_remove_from_parent` (`json.c:601`). -/
def jsonRemoveFromParent (node : Ptr) : HeapM Unit := do
  let n ← deref node
  match n.parent with
  | some parent =>
    let p ← deref parent
    store parent { p with contents := p.contents.withChildren (p.contents.children.erase node) }
    store node { n with parent := none, key := none }
  | none => return ()

/-- `json_delete` (`json.c:407`) of a node. Each child is found before the one in front is deleted. -/
def deleteNode : Nat → Ptr → HeapM Unit
  | 0, _ => throw .fuel
  | fuel + 1, node => do
    jsonRemoveFromParent node
    let n ← deref node
    n.contents.children.forM (deleteNode fuel)
    free node

/-- `json_delete`, with fuel for every node there is. -/
def jsonDelete : Option Ptr → HeapM Unit
  | none => return ()
  | some node => do deleteNode (← get).next node

/-! ## Lookup -/

/-- The loop of `json_find_member` (`json.c:465`). -/
def findMember (name : Str) : List Ptr → HeapM (Option Ptr)
  | [] => return none
  | member :: rest => do
    match (← deref member).key with
    | some key => if key = name then return some member else findMember name rest
    | none => throw .nullDeref

/-- `json_find_member`. -/
def jsonFindMember (object : Option Ptr) (name : Str) : HeapM (Option Ptr) := do
  match object with
  | none => return none
  | some object =>
    match (← deref object).contents with
    | .object children => findMember name children
    | _ => return none

/-! ## Text -/

/-- `emit_value` and the parser of `json.c`, on values. -/
structure JsonCodec where
  encode : Json → Str
  /-- `none` for what is not JSON. -/
  decode : Str → Option Json

/-- The value `emit_value` walks over, from `node` down. -/
def readValue : Nat → Ptr → HeapM Json
  | 0, _ => throw .fuel
  | fuel + 1, node => do
    match (← deref node).contents with
    | .null => return .null
    | .bool b => return .bool b
    | .string s => return .string s
    | .number bits => return .number bits
    | .array children => return .array (← children.mapM (readValue fuel))
    | .object children =>
      return .object (← children.mapM fun member => do
        match (← deref member).key with
        | some key => return (key, ← readValue fuel member)
        | none => throw .nullDeref)

/-- `json_encode` (`json.c:379`). -/
def jsonEncode (codec : JsonCodec) : Option Ptr → HeapM Str
  | none => throw .nullDeref
  | some node => do return codec.encode (← readValue (← get).next node)

mutual

/-- The nodes `parse_value` makes for a value. -/
def build : Json → HeapM Ptr
  | .null => mknode .null
  | .bool b => mknode (.bool b)
  | .string s => mknode (.string s)
  | .number bits => mknode (.number bits)
  | .array elements => do
    let ret ← mknode (.array [])
    buildElements ret elements
    return ret
  | .object members => do
    let ret ← mknode (.object [])
    buildMembers ret members
    return ret

/-- The loop of `parse_array`. -/
def buildElements (ret : Ptr) : List Json → HeapM Unit
  | [] => return ()
  | e :: elements => do
    let element ← build e
    jsonAppendElement ret element
    buildElements ret elements

/-- The loop of `parse_object`. -/
def buildMembers (ret : Ptr) : List (Str × Json) → HeapM Unit
  | [] => return ()
  | (key, v) :: members => do
    let value ← build v
    jsonAppendMember ret key value
    buildMembers ret members

end

/-- `json_decode` (`json.c:361`): null for what is not JSON. -/
def jsonDecode (codec : JsonCodec) (json : Str) : HeapM (Option Ptr) :=
  match codec.decode json with
  | none => return none
  | some value => do return some (← build value)

end CodiusSandbox
