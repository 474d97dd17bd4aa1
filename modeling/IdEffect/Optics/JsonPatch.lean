import IdEffect.Optics.Path

set_option autoImplicit false

/-! # JSON Patch

The six operations of `json_patch.rs`, layered on reading, setting and creating at a path.
`apply_remove` reads the pointer itself, but goes back to the parent through its dotted rendering,
which is read anew. -/

namespace IdEffect.Optics

open Schema (Unknown)

/-! ## Equality of values -/

mutual

/-- The derived `PartialEq`; numbers compare as floats do. -/
def eqUnknown : Unknown → Unknown → Bool
  | .null, .null => true
  | .bool a, .bool b => a == b
  | .i64 a, .i64 b => a == b
  | .f64 a, .f64 b => a == b
  | .string a, .string b => a == b
  | .array a, .array b => eqItems a b
  | .object a, .object b => eqEntries a b
  | _, _ => false

def eqItems : List Unknown → List Unknown → Bool
  | [], [] => true
  | a :: as, b :: bs => eqUnknown a b && eqItems as bs
  | _, _ => false

def eqEntries : List (String × Unknown) → List (String × Unknown) → Bool
  | [], [] => true
  | (k, a) :: as, (l, b) :: bs => k == l && eqUnknown a b && eqEntries as bs
  | _, _ => false

end

/-! ## Operations -/

/-- A patch operation; `P` is how a path is given (the source's are strings). -/
inductive PatchOp (P : Type) where
  | add (path : P) (value : Unknown)
  | replace (path : P) (value : Unknown)
  | remove (path : P)
  | move (from_ path : P)
  | copy (from_ path : P)
  | test (path : P) (value : Unknown)

inductive PatchError where
  | path (e : SchemaPathError)
  /-- A missing target or a mismatched value. -/
  | missing (path : String) (message : String)
  deriving DecidableEq, Repr

abbrev Patched : Type := Except PatchError Unknown

variable (debug : DebugText)

/-- `map_err(PatchError::from)`. -/
def Patched.ofPath (r : Except SchemaPathError Unknown) : Patched :=
  r.mapError PatchError.path

def applyReplace (doc : Unknown) (path : List Char) (value : Unknown) : Patched := do
  let _ ← Patched.ofPath (getAtPath debug doc path)
  Patched.ofPath (setAtPath debug doc path value)

def applyAdd (doc : Unknown) (path : List Char) (value : Unknown) : Patched :=
  if path = [] then .ok value
  else
    match getAtPath debug doc path with
    | .ok _ => applyReplace debug doc path value
    | .error _ => Patched.ofPath (createAtPath debug doc path value)

/-- The parent without its part `last`. -/
def removeSegment (path : List Char) (parent : Unknown) (last : PathSegment) : Patched :=
  match parent, last with
  | .object map, .field name =>
      match Assoc.get name map with
      | none => .error (.missing (String.ofList path) ("missing field `" ++ name ++ "`"))
      | some _ => .ok (.object (Assoc.erase name map))
  | .array items, .index i =>
      if items.length ≤ i then
        .error (.missing (String.ofList path) ("index " ++ toString i ++ " out of bounds"))
      else .ok (.array (items.eraseIdx i))
  | other, segment =>
      .error (.missing (String.ofList path)
        ("cannot remove " ++ debug.segment segment ++ " from " ++ debug.unknown other))

def applyRemove (doc : Unknown) (path : List Char) : Patched :=
  match (parsePath path).reverse with
  | [] => .error (.missing (String.ofList path) "cannot remove document root")
  | last :: init =>
      let parentSegments := init.reverse
      let parentPath := segmentsToDot parentSegments
      let parent : Patched :=
        if parentSegments = [] then .ok doc
        else Patched.ofPath (getAtPath debug doc parentPath)
      do
        let parent ← parent
        let updatedParent ← removeSegment debug path parent last
        if parentSegments = [] then .ok updatedParent
        else Patched.ofPath (setAtPath debug doc parentPath updatedParent)

def applyMove (doc : Unknown) (from_ path : List Char) : Patched := do
  let value ← Patched.ofPath (getAtPath debug doc from_)
  let without ← applyRemove debug doc from_
  applyAdd debug without path value

def applyCopy (doc : Unknown) (from_ path : List Char) : Patched := do
  let value ← Patched.ofPath (getAtPath debug doc from_)
  applyAdd debug doc path value

def applyTest (doc : Unknown) (path : List Char) (value : Unknown) : Patched := do
  let current ← Patched.ofPath (getAtPath debug doc path)
  if ¬ eqUnknown current value then
    .error (.missing (String.ofList path) "test value mismatch")
  else .ok doc

def applyPatch (doc : Unknown) : PatchOp (List Char) → Patched
  | .add path value => applyAdd debug doc path value
  | .replace path value => applyReplace debug doc path value
  | .remove path => applyRemove debug doc path
  | .move from_ path => applyMove debug doc from_ path
  | .copy from_ path => applyCopy debug doc from_ path
  | .test path value => applyTest debug doc path value

/-- Apply operations in order, up to the first that fails. -/
def applyPatches (doc : Unknown) (ops : List (PatchOp (List Char))) : Patched :=
  ops.foldlM (applyPatch debug) doc

end IdEffect.Optics
