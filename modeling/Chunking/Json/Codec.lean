import Chunking.Json.Skip
import Chunking.Json.Write

/-!
# Codecs

A codec says how values of a type are written as JSON and how they are read
back. Codecs of records are put together from shapes: a shape holds the
members of a record, and two shapes side by side hold the members of both.
Writing and reading come from the one description, so they cannot drift apart.

A record is written as an object and may be read from an object or a list. In
an object the members come in any order, a member with an unknown name is
passed over, and a member may not come twice. In a list the members come in
the order of the shape, all of them, and nothing else.

While a record is read, the members met so far are kept in the shape's state,
and only at the end is it settled whether they make up a value.

## Main definitions

* `Json.Codec`: How values of a type are written and read.
* `Json.Member`: A member of a record, as a reader sees it.
* `Json.Shape`: The members of a record.
* `Json.Shape.member`, `Json.Shape.memberOr`, `Json.Shape.optional`: A single
  member.
* `Json.Shape.and`: The members of two shapes.
* `Json.Codec.ofShape`: The codec of a record.
* `Json.Codec.string`, `Json.Codec.natural`, `Json.Codec.list`,
  `Json.Codec.nullable`, `Json.Codec.oneOf`: Codecs of other values.
* `Json.Codec.encode`: The text of a value.
* `Json.Codec.decode`: The value of a text.
-/

namespace Chunking.Json

/-- How values of a type are written and read. -/
structure Codec (α : Type) where
  /-- The text of a value. -/
  write : α → List Char
  /-- Read a value from the front of a text. -/
  read : Reader α

namespace Codec

/-- Read a value that starts with a character other than a blank. -/
def atFirst {α : Type} (read : Char → Reader α) : Reader α := fun text =>
  match skipBlanks text with
  | [] => .error .truncated
  | c :: rest => read c rest

/-- Strings. -/
def string : Codec String where
  write := quote
  read := atFirst fun c rest => if c = '"' then readString rest else .error (mismatch c rest)

/-- Natural numbers of 64 bits. -/
def natural : Codec Nat where
  write := number
  read := atFirst fun c rest =>
    if c = '-' || c.isDigit then
      match readNumber (c :: rest) with
      | .error fault => .error fault
      | .ok (.natural value, rest) => .ok (value, rest)
      | .ok (.other, _) => .error .mismatched
    else .error (mismatch c rest)

/-- Values of a type that stand for values of another. What the other type
cannot express is a mismatch. -/
def via {α β : Type} (codec : Codec α) (ofValue? : α → Option β) (toValue : β → α) : Codec β where
  write value := codec.write (toValue value)
  read text := do
    let (value, rest) ← codec.read text
    match ofValue? value with
    | some value => return (value, rest)
    | none => throw .mismatched

/-- Sizes. -/
def size : Codec UInt64 :=
  natural.via (fun n => some (UInt64.ofNat n)) UInt64.toNat

/-- The items of a list up to its end, behind those already read, which are
given in reverse. The number of items is bounded by the length of a list, for
which the text will serve. -/
def readItems {α : Type} (read : Reader α) (newestFirst : List α) :
    List Char → List Char → Except Fault (List α × List Char)
  | [], _ => .error .malformed
  | _ :: bound, text =>
    match skipBlanks text with
    | [] => .error .truncated
    | c :: rest =>
      let item (text : List Char) : Except Fault (List α × List Char) :=
        match read text with
        | .error fault => .error fault
        | .ok (value, rest) => readItems read (value :: newestFirst) bound rest
      -- A comma stands before each item but the first, and none before the end.
      if c = ']' then .ok (newestFirst.reverse, rest)
      else if newestFirst.isEmpty then item (c :: rest)
      else if c = ',' then
        match skipBlanks rest with
        | [] => .error .truncated
        | next :: rest => if next = ']' then .error .malformed else item (next :: rest)
      else .error .malformed

/-- Lists. -/
def list {α : Type} (codec : Codec α) : Codec (List α) where
  write items := Json.list (items.map codec.write)
  read := atFirst fun c rest =>
    if c = '[' then readItems codec.read [] (c :: rest) rest else .error (mismatch c rest)

/-- Values that may be absent. An absent value is written as null. -/
def nullable {α : Type} (codec : Codec α) : Codec (Option α) where
  write
    | none => Json.null
    | some value => codec.write value
  read := atFirst fun c rest =>
    if c = 'n' then (readWord "ull".toList rest).map fun rest => (none, rest)
    else (codec.read (c :: rest)).map fun (value, rest) => (some value, rest)

/-- One of finitely many values, each known by its name. A name stands for
itself, or is the one member of an object whose value is null. -/
def oneOf {α : Type} (values : List α) (name : α → String) : Codec α where
  write value := quote (name value)
  read := atFirst fun c rest => do
    let named (name' : String) : Except Fault α :=
      match values.find? fun value => name value == name' with
      | some value => .ok value
      | none => .error .mismatched
    if c = '"' then
      let (key, rest) ← readString rest
      return (← named key, rest)
    else if c = '\x7b' then
      -- The name is settled before the value is looked at.
      let (key, rest) ← atFirst (fun c rest =>
        if c = '"' then readString rest else .error .malformed) rest
      let value ← named key
      let rest ← readColon rest
      let rest ← atFirst (fun c rest =>
        if c = 'n' then (readWord "ull".toList rest).map fun rest => ((), rest)
        else .error (mismatch c rest)) rest
      match skipBlanks rest.2 with
      | [] => throw .truncated
      | c :: rest => if c = '\x7d' then return (value, rest) else throw .malformed
    else throw .malformed

end Codec

/-- A member of a record, as a reader sees it: what has been read so far is
`σ`. -/
structure Member (σ : Type) where
  /-- The name of the member. -/
  name : String
  /-- Whether the member has been read. -/
  isRead : σ → Bool
  /-- Read the member's value. -/
  read : σ → Reader σ
  /-- Whether the member may be missing at the end of a list. -/
  omissible : Bool

/-- A member of a part of what is read. -/
def Member.lift {σ τ : Type} (member : Member σ) (part : τ → σ) (replace : τ → σ → τ) :
    Member τ where
  name := member.name
  isRead state := member.isRead (part state)
  read state text := (member.read (part state) text).map fun (read, rest) =>
    (replace state read, rest)
  omissible := member.omissible

/-- The members of a record of type `α`, with `σ` for what has been read of
them. -/
structure Shape (σ α : Type) where
  /-- Nothing has been read. -/
  start : σ
  /-- The members in their order. -/
  members : List (Member σ)
  /-- The value that the members make up, if none is missing. -/
  finish : σ → Option α
  /-- The members of a value with their texts, in order. -/
  write : α → List (String × List Char)

namespace Shape

/-- The members of a shape with one member. -/
def only {α : Type} (name : String) (codec : Codec α) (omissible : Bool) :
    List (Member (Option α)) :=
  [{ name
     isRead := Option.isSome
     read := fun _ text => (codec.read text).map fun (value, rest) => (some value, rest)
     omissible }]

/-- A member that must be there. -/
def member {α : Type} (name : String) (codec : Codec α) : Shape (Option α) α where
  start := none
  members := only name codec false
  finish := id
  write value := [(name, codec.write value)]

/-- A member with a value in case it is missing. It must be there in a list
unless it is omissible. -/
def memberOr {α : Type} (name : String) (codec : Codec α) (default : α) (omissible : Bool) :
    Shape (Option α) α where
  start := none
  members := only name codec omissible
  finish state := some (state.getD default)
  write value := [(name, codec.write value)]

/-- A member that is written only if it has a value. -/
def optional {α : Type} (name : String) (codec : Codec α) : Shape (Option α) (Option α) where
  start := none
  members := only name codec false
  finish := some
  write
    | none => []
    | some value => [(name, codec.write value)]

/-- The members of two shapes, those of the first before those of the
second. -/
def and {σ τ α β : Type} (first : Shape σ α) (second : Shape τ β) : Shape (σ × τ) (α × β) where
  start := (first.start, second.start)
  members :=
    first.members.map (·.lift Prod.fst fun state read => (read, state.2)) ++
      second.members.map (·.lift Prod.snd fun state read => (state.1, read))
  finish state := do return (← first.finish state.1, ← second.finish state.2)
  write value := first.write value.1 ++ second.write value.2

/-- The same members for values that stand for others. -/
def via {σ α β : Type} (shape : Shape σ α) (ofValue? : α → Option β) (toValue : β → α) :
    Shape σ β where
  start := shape.start
  members := shape.members
  finish state := (shape.finish state).bind ofValue?
  write value := shape.write (toValue value)

/-- The members of an object up to its end. `first` tells that none has come
yet. The number of members is bounded by the length of a list, for which the
text will serve. -/
def readObject {σ : Type} (members : List (Member σ)) (first : Bool) (state : σ) :
    List Char → List Char → Except Fault (σ × List Char)
  | [], _ => .error .malformed
  | _ :: bound, text =>
    match skipBlanks text with
    | [] => .error .truncated
    | c :: rest =>
      let member (text : List Char) : Except Fault (σ × List Char) :=
        match readString text with
        | .error fault => .error fault
        | .ok (name, rest) =>
          match members.find? fun member => member.name == name with
          -- The value of an unknown member is passed over, whatever it is.
          | none =>
            match readColon rest >>= skipValue with
            | .error fault => .error fault
            | .ok rest => readObject members false state bound rest
          | some member =>
            if member.isRead state then .error .mismatched
            else match readColon rest >>= member.read state with
              | .error fault => .error fault
              | .ok (state, rest) => readObject members false state bound rest
      if c = '\x7d' then .ok (state, rest)
      else if first then
        if c = '"' then member rest else .error .malformed
      else if c = ',' then
        match skipBlanks rest with
        | [] => .error .truncated
        | next :: rest => if next = '"' then member rest else .error .malformed
      else .error .malformed

/-- The members of a list in their order, and the end of the list. `first`
tells that none has come yet. -/
def readList {σ : Type} (first : Bool) (state : σ) :
    List (Member σ) → List Char → Except Fault (σ × List Char)
  | [], text =>
    match skipBlanks text with
    | [] => .error .truncated
    | c :: rest => if c = ']' then .ok (state, rest) else .error .malformed
  | member :: more, text =>
    match skipBlanks text with
    | [] => .error .truncated
    | c :: rest =>
      let value (text : List Char) : Except Fault (σ × List Char) :=
        match member.read state text with
        | .error fault => .error fault
        | .ok (state, rest) => readList false state more rest
      if c = ']' then
        -- The list is over, and each member that is left has to be omissible.
        if member.omissible then readList first state more (c :: rest) else .error .mismatched
      else if first then value (c :: rest)
      else if c = ',' then
        match skipBlanks rest with
        | [] => .error .truncated
        | next :: rest => if next = ']' then .error .malformed else value (next :: rest)
      else .error .malformed

/-- The value that the members read make up. -/
def settle {σ α : Type} (shape : Shape σ α) (read : σ × List Char) :
    Except Fault (α × List Char) :=
  match shape.finish read.1 with
  | some value => .ok (value, read.2)
  | none => .error .mismatched

end Shape

namespace Codec

/-- Records of a shape. -/
def ofShape {σ α : Type} (shape : Shape σ α) : Codec α where
  write value := object (shape.write value)
  read := atFirst fun c rest =>
    if c = '\x7b' then
      Shape.readObject shape.members true shape.start (c :: rest) rest >>= shape.settle
    else if c = '[' then
      Shape.readList true shape.start shape.members rest >>= shape.settle
    else .error (mismatch c rest)

/-- The text of a value. -/
def encode {α : Type} (codec : Codec α) (value : α) : String :=
  String.ofList (codec.write value)

/-- The value of a text, which holds nothing else but white space. -/
def decode {α : Type} (codec : Codec α) (text : String) : Except Fault α := do
  let (value, rest) ← codec.read text.toList
  if (skipBlanks rest).isEmpty then return value else throw .malformed

end Codec

end Chunking.Json
