import IdEffect.Schema.Parse

set_option autoImplicit false

/-! # Document paths

Paths as `path.rs` reads them and the access to dynamic values of `schema_bridge.rs`. A path string
is the list of its characters; `/`-led paths are taken for JSON Pointers, all others are split at
their dots. Reading a path never looks at a document: whether a token is a name or an index is
decided by its characters alone.

The functions that recurse on `segments[..len - 1]` take the segments in reverse. `DebugText` stands
for the `{:?}` renderings in their messages. -/

namespace IdEffect.Optics

open Schema (Unknown)

/-! ## Segments -/

/-- The path attempted and the reason it failed. -/
structure SchemaPathError where
  path : String
  message : String
  deriving DecidableEq, Repr

/-- A single step in a document path. -/
inductive PathSegment where
  | field (name : String)
  | index (i : ℕ)
  | append
  deriving DecidableEq, Repr

/-- The `Debug` renderings of segments and values. -/
structure DebugText where
  segment : PathSegment → String
  unknown : Unknown → String

/-- `str::replace` of a pattern of two characters by one. -/
def replacePair (a b out : Char) : List Char → List Char
  | c :: d :: text =>
      if c = a ∧ d = b then out :: replacePair a b out text
      else c :: replacePair a b out (d :: text)
  | text => text

def decodeJsonPointerSegment (segment : List Char) : List Char :=
  replacePair '~' '0' '~' (replacePair '~' '1' '/' segment)

/-- `str::parse::<usize>`: an optional plus sign, then digits, below `2^64`. -/
def parseUsize (segment : List Char) : Option ℕ :=
  let digits := if segment.head? = some '+' then segment.tail else segment
  if digits ≠ [] ∧ digits.all Char.isDigit
      ∧ Nat.ofDigitChars 10 digits 0 < 18446744073709551616 then
    some (Nat.ofDigitChars 10 digits 0)
  else
    none

def parseSegment (segment : List Char) : PathSegment :=
  if segment = ['-'] then .append
  else
    match parseUsize segment with
    | some index => .index index
    | none => .field (String.ofList segment)

def parseDotPath (path : List Char) : List PathSegment :=
  (path.splitOn '.').map parseSegment

/-- All leading slashes are trimmed. -/
def parseJsonPointer (path : List Char) : List PathSegment :=
  if path = ['/'] then []
  else
    ((path.dropWhile (· == '/')).splitOn '/').map fun segment =>
      parseSegment (decodeJsonPointerSegment segment)

/-- Reading a path cannot fail: `parse_path` always answers `Ok`. -/
def parsePath (path : List Char) : List PathSegment :=
  if path = [] then []
  else if path.head? = some '/' then parseJsonPointer path
  else parseDotPath path

def PathSegment.toDot : PathSegment → List Char
  | .field name => name.toList
  | .index i => Nat.toDigits 10 i
  | .append => ['-']

def segmentsToDot (segments : List PathSegment) : List Char :=
  ['.'].intercalate (segments.map PathSegment.toDot)

/-! ## Reading -/

/-- `visited` are the segments already passed, for the path of the error. -/
def getAtSegments (debug : DebugText) (path : List Char) :
    List PathSegment → Unknown → List PathSegment → Except SchemaPathError Unknown
  | _, current, [] => .ok current
  | visited, current, segment :: segments =>
      let visited := visited ++ [segment]
      let partialPath := String.ofList (segmentsToDot visited)
      match current, segment with
      | .object map, .field name =>
          match Assoc.get name map with
          | some v => getAtSegments debug path visited v segments
          | none => .error ⟨partialPath, "missing field `" ++ name ++ "`"⟩
      | .array items, .index i =>
          match items[i]? with
          | some v => getAtSegments debug path visited v segments
          | none => .error ⟨partialPath, "index " ++ toString i ++ " out of bounds"⟩
      | .array _, .append => .error ⟨String.ofList path, "append segment is not readable"⟩
      | other, .field name =>
          .error ⟨partialPath,
            "cannot traverse " ++ debug.unknown other ++ " for field `" ++ name ++ "`"⟩
      | other, .index i =>
          .error ⟨partialPath,
            "cannot traverse " ++ debug.unknown other ++ " at index " ++ toString i⟩
      | other, .append =>
          .error ⟨partialPath, "cannot traverse " ++ debug.unknown other ++ " for append segment"⟩

def getAtPath (debug : DebugText) (value : Unknown) (path : List Char) :
    Except SchemaPathError Unknown :=
  if path = [] then .ok value
  else getAtSegments debug path [] value (parsePath path)

/-! ## Writing -/

def defaultContainerFor : PathSegment → Unknown
  | .field _ => .object []
  | .index _ => .array []
  | .append => .array []

def assignSegment (debug : DebugText) (parent : Unknown) (segment : PathSegment)
    (newValue : Unknown) (path : List Char) (allowAppend : Bool) :
    Except SchemaPathError Unknown :=
  match parent, segment with
  | .object map, .field name => .ok (.object (Assoc.insert name newValue map))
  | .array items, .index i =>
      if items.length < i ∨ (¬ allowAppend ∧ items.length ≤ i) then
        .error ⟨String.ofList path, "index " ++ toString i ++ " out of bounds"⟩
      else if i = items.length then .ok (.array (items ++ [newValue]))
      else .ok (.array (items.set i newValue))
  | .array items, .append =>
      if allowAppend then .ok (.array (items ++ [newValue]))
      else .error ⟨String.ofList path, "append segment is not settable"⟩
  | other, segment =>
      .error ⟨String.ofList path,
        "cannot set " ++ debug.segment segment ++ " on " ++ debug.unknown other⟩

/-- The segments are given last one first. -/
def setAtReversed (debug : DebugText) (path : List Char) (value : Unknown) :
    List PathSegment → Unknown → Except SchemaPathError Unknown
  | [], newValue => .ok newValue
  | last :: parentSegments, newValue => do
      let parent ← getAtSegments debug path [] value parentSegments.reverse
      let updatedParent ← assignSegment debug parent last newValue path false
      setAtReversed debug path value parentSegments updatedParent

def setAtPath (debug : DebugText) (value : Unknown) (path : List Char) (newValue : Unknown) :
    Except SchemaPathError Unknown :=
  if path = [] then .ok newValue
  else setAtReversed debug path value (parsePath path).reverse newValue

/-- The parent is read, or else created as a container for the last segment; the segments are given
    last one first. -/
def createAtReversed (debug : DebugText) (path : List Char) (value : Unknown) :
    List PathSegment → Unknown → Except SchemaPathError Unknown
  | [], newValue => .ok newValue
  | last :: parentSegments, newValue =>
      let parent : Except SchemaPathError Unknown :=
        match getAtSegments debug path [] value parentSegments.reverse with
        | .ok parent => .ok parent
        | .error _ => do
            let ensured ←
              createAtReversed debug path value parentSegments (defaultContainerFor last)
            getAtSegments debug path [] ensured parentSegments.reverse
      do
        let parent ← parent
        let updatedParent ← assignSegment debug parent last newValue path true
        createAtReversed debug path value parentSegments updatedParent

def createAtPath (debug : DebugText) (value : Unknown) (path : List Char) (newValue : Unknown) :
    Except SchemaPathError Unknown :=
  if path = [] then .ok newValue
  else createAtReversed debug path value (parsePath path).reverse newValue

end IdEffect.Optics
