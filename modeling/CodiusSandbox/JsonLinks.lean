import CodiusSandbox.JsonProofs
import CodiusSandbox.Lib.LinkedList
/-!
# The links between JSON nodes (`json.c`, `json.h`)

`Json.lean` has the children of a node as a list. Here they are linked as in `struct JsonNode`, and every
function does on the links what it does on the lists (`Agrees`).

| here                                   | there                                                                      |
|----------------------------------------|----------------------------------------------------------------------------|
| `Memory`                               | the nodes, field by field; `head` and `tail` are those of `children`        |
| `load`, `write`                        | `node->field`, and `node->field = …`                                        |
| `mknode`, `appendNode`, …              | `mknode`, `append_node`, … (`json.c:407-620`)                               |
| the first argument of a loop           | the turns that are left: `json_foreach` ends when every node was passed     |

Only nodes whose tag has children are asked for `head` and `tail`: every caller of `append_node` and
`prepend_node` has looked at the tag.
-/
namespace CodiusSandbox.JsonLinks

open LinkedList TreeHeap Wp

/-! ## Nodes in memory -/

inductive JsonTag where
  | null
  | bool
  | string
  | number
  | array
  | object
deriving DecidableEq, Repr

structure Memory where
  /-- Allocated and not freed. -/
  live : Ptr → Bool
  /-- Where the next node goes. -/
  fresh : Ptr
  parent : Ptr → Option Ptr
  prev : Ptr → Option Ptr
  next : Ptr → Option Ptr
  key : Ptr → Option Str
  tag : Ptr → JsonTag
  bool_ : Ptr → Bool
  string_ : Ptr → Option Str
  number_ : Ptr → Word
  head : Ptr → Option Ptr
  tail : Ptr → Option Ptr

def Memory.empty : Memory :=
  ⟨fun _ => false, 1, fun _ => none, fun _ => none, fun _ => none, fun _ => none, fun _ => .null, fun _ => false,
    fun _ => none, fun _ => 0, fun _ => none, fun _ => none⟩

abbrev NodeM := EStateM Fault Memory

def load {α : Type} (field : Memory → Ptr → α) (p : Ptr) : NodeM α := fun m =>
  if m.live p then .ok (field m p) m
  else .error .useAfterFree m

def write (p : Ptr) (f : Memory → Memory) : NodeM Unit := fun m =>
  if m.live p then .ok () (f m)
  else .error .useAfterFree m

def Memory.setParent (p : Ptr) (v : Option Ptr) (m : Memory) : Memory := { m with parent := Function.update m.parent p v }
def Memory.setPrev (p : Ptr) (v : Option Ptr) (m : Memory) : Memory := { m with prev := Function.update m.prev p v }
def Memory.setNext (p : Ptr) (v : Option Ptr) (m : Memory) : Memory := { m with next := Function.update m.next p v }
def Memory.setKey (p : Ptr) (v : Option Str) (m : Memory) : Memory := { m with key := Function.update m.key p v }
def Memory.setHead (p : Ptr) (v : Option Ptr) (m : Memory) : Memory := { m with head := Function.update m.head p v }
def Memory.setTail (p : Ptr) (v : Option Ptr) (m : Memory) : Memory := { m with tail := Function.update m.tail p v }

/-! ## Construction -/

/-- `mknode`: `calloc` clears every field. -/
def mknode (tag : JsonTag) : NodeM Ptr := do
  let m ← get
  let ret := m.fresh
  set { m with
    live := Function.update m.live ret true
    fresh := ret + 1
    parent := Function.update m.parent ret none
    prev := Function.update m.prev ret none
    next := Function.update m.next ret none
    key := Function.update m.key ret none
    tag := Function.update m.tag ret tag
    bool_ := Function.update m.bool_ ret false
    string_ := Function.update m.string_ ret none
    number_ := Function.update m.number_ ret 0
    head := Function.update m.head ret none
    tail := Function.update m.tail ret none }
  return ret

def jsonMknull : NodeM Ptr := mknode .null

def jsonMkbool (b : Bool) : NodeM Ptr := do
  let ret ← mknode .bool
  write ret fun m => { m with bool_ := Function.update m.bool_ ret b }
  return ret

def jsonMkstring (s : Str) : NodeM Ptr := do
  let ret ← mknode .string
  write ret fun m => { m with string_ := Function.update m.string_ ret (some s) }
  return ret

def jsonMknumber (n : Word) : NodeM Ptr := do
  let ret ← mknode .number
  write ret fun m => { m with number_ := Function.update m.number_ ret n }
  return ret

def jsonMkarray : NodeM Ptr := mknode .array

def jsonMkobject : NodeM Ptr := mknode .object

def appendNode (parent child : Ptr) : NodeM Unit := do
  write child (Memory.setParent child (some parent))
  let tail ← load Memory.tail parent
  write child (Memory.setPrev child tail)
  write child (Memory.setNext child none)
  match tail with
  | some t => write t (Memory.setNext t (some child))
  | none => write parent (Memory.setHead parent (some child))
  write parent (Memory.setTail parent (some child))

def prependNode (parent child : Ptr) : NodeM Unit := do
  write child (Memory.setParent child (some parent))
  write child (Memory.setPrev child none)
  let head ← load Memory.head parent
  write child (Memory.setNext child head)
  match head with
  | some t => write t (Memory.setPrev t (some child))
  | none => write parent (Memory.setTail parent (some child))
  write parent (Memory.setHead parent (some child))

/-- `assert (parent->tag == tag)` and `assert (child->parent == NULL)`. -/
def checkLoose (tag : JsonTag) (parent child : Ptr) : NodeM Unit := do
  if (← load Memory.tag parent) = tag then
    if (← load Memory.parent child) = none then return ()
    else throw .assertion
  else throw .assertion

def jsonAppendElement (array element : Ptr) : NodeM Unit := do
  checkLoose .array array element
  appendNode array element

def jsonPrependElement (array element : Ptr) : NodeM Unit := do
  checkLoose .array array element
  prependNode array element

def jsonAppendMember (object : Ptr) (key : Str) (value : Ptr) : NodeM Unit := do
  checkLoose .object object value
  write value (Memory.setKey value (some key))
  appendNode object value

def jsonPrependMember (object : Ptr) (key : Str) (value : Ptr) : NodeM Unit := do
  checkLoose .object object value
  write value (Memory.setKey value (some key))
  prependNode object value

/-! ## Removal -/

def jsonRemoveFromParent (node : Ptr) : NodeM Unit := do
  match ← load Memory.parent node with
  | none => return ()
  | some parent =>
    let prev ← load Memory.prev node
    let next ← load Memory.next node
    match prev with
    | some p => write p (Memory.setNext p next)
    | none => write parent (Memory.setHead parent next)
    match next with
    | some n => write n (Memory.setPrev n prev)
    | none => write parent (Memory.setTail parent prev)
    write node (Memory.setParent node none)
    write node (Memory.setNext node none)
    write node (Memory.setPrev node none)
    write node (Memory.setKey node none)

def free (p : Ptr) : NodeM Unit := modify fun m => { m with live := Function.update m.live p false }

/-- The loop of `json_delete`, with `next` read before the child is deleted. -/
def deleteLoop (delete : Ptr → NodeM Unit) : Nat → Option Ptr → NodeM Unit
  | _, none => return ()
  | 0, some _ => throw .fuel
  | turns + 1, some child => do
    let next ← load Memory.next child
    delete child
    deleteLoop delete turns next

/-- `json_delete` of a node. -/
def deleteNode : Nat → Ptr → NodeM Unit
  | 0, _ => throw .fuel
  | fuel + 1, node => do
    jsonRemoveFromParent node
    let tag ← load Memory.tag node
    if tag = .array ∨ tag = .object then
      deleteLoop (deleteNode fuel) (← get).fresh (← load Memory.head node)
    free node

def jsonDelete : Option Ptr → NodeM Unit
  | none => return ()
  | some node => do deleteNode (← get).fresh node

/-! ## Lookup -/

def jsonFirstChild : Option Ptr → NodeM (Option Ptr)
  | none => return none
  | some node => do
    let tag ← load Memory.tag node
    if tag = .array ∨ tag = .object then load Memory.head node
    else return none

/-- The loop of `json_find_element`. -/
def findElement (index : Int) : Nat → Int → Option Ptr → NodeM (Option Ptr)
  | _, _, none => return none
  | 0, _, some _ => throw .fuel
  | turns + 1, i, some element => do
    if i = index then return some element
    else findElement index turns (i + 1) (← load Memory.next element)

def jsonFindElement (array : Option Ptr) (index : Int) : NodeM (Option Ptr) := do
  match array with
  | none => return none
  | some array =>
    if (← load Memory.tag array) = .array then findElement index (← get).fresh 0 (← jsonFirstChild (some array))
    else return none

/-- The loop of `json_find_member`. -/
def findMember (name : Str) : Nat → Option Ptr → NodeM (Option Ptr)
  | _, none => return none
  | 0, some _ => throw .fuel
  | turns + 1, some member => do
    match ← load Memory.key member with
    | some key =>
      if key = name then return some member
      else findMember name turns (← load Memory.next member)
    | none => throw .nullDeref

def jsonFindMember (object : Option Ptr) (name : Str) : NodeM (Option Ptr) := do
  match object with
  | none => return none
  | some object =>
    if (← load Memory.tag object) = .object then findMember name (← get).fresh (← jsonFirstChild (some object))
    else return none

/-! ## On lists

What `Json.lean` has no counterpart for. -/

def tagOf : JsonContents → JsonTag
  | .null => .null
  | .bool _ => .bool
  | .string _ => .string
  | .number _ => .number
  | .array _ => .array
  | .object _ => .object

namespace OnLists

def checkLoose (tag : JsonTag) (parent child : Ptr) : HeapM Unit := do
  if tagOf (← deref parent).contents = tag then
    if (← deref child).parent = none then return ()
    else throw .assertion
  else throw .assertion

def setKey (node : Ptr) (key : Str) : HeapM Unit := do
  let n ← deref node
  store node { n with key := some key }

def prependNode (parent child : Ptr) : HeapM Unit := do
  let c ← deref child
  store child { c with parent := some parent }
  let p ← deref parent
  store parent { p with contents := p.contents.withChildren (child :: p.contents.children) }

def jsonPrependElement (array element : Ptr) : HeapM Unit := do
  checkLoose .array array element
  prependNode array element

def jsonPrependMember (object : Ptr) (key : Str) (value : Ptr) : HeapM Unit := do
  checkLoose .object object value
  setKey value key
  prependNode object value

def jsonFirstChild : Option Ptr → HeapM (Option Ptr)
  | none => return none
  | some node => do return (← deref node).contents.children.head?

def jsonFindElement (array : Option Ptr) (index : Int) : HeapM (Option Ptr) := do
  match array with
  | none => return none
  | some array =>
    match (← deref array).contents with
    | .array children => return if 0 ≤ index then children[index.toNat]? else none
    | _ => return none

end OnLists

end CodiusSandbox.JsonLinks
