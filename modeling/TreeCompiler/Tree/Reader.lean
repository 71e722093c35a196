import TreeCompiler.Json.Reader
import TreeCompiler.Tree.OfJson

/-!
# Reading syntax trees

A tree is read member by member and declaration by declaration, so that of several faults the first
one in the text is reported. Members that a tree does not have are skipped unread, and none that it
has may come twice. The members may also stand in an array, in order, and so may the fields of a
declaration, after its kind.
-/

namespace TreeCompiler

open Json (Fault)
open Json.Reader

namespace Tree

/-- How many brackets and braces may be open at once. -/
def nestingLimit : Nat := 127

structure Draft where
  module : Option QualifiedName := none
  file : Option (Option String) := none
  source : Option (Option String) := none
  body : Option (List Decl) := none

def Draft.finish (p : Draft) : Except Fault Tree :=
  match p.body with
  | some body =>
    .ok { module := p.module.getD .global
          file := p.file.getD none
          source := p.source.getD none
          body }
  | none => .error .mismatch

def Draft.has (p : Draft) : String → Bool
  | "module" => p.module.isSome
  | "file" => p.file.isSome
  | "source" => p.source.isSome
  | "body" => p.body.isSome
  | _ => false

def wanted {α : Type} : Option α → Except Fault α
  | some a => .ok a
  | none => .error .mismatch

/-! ## Texts -/

section

variable (fuel : Nat)

/-- A value that is no array and no object; the others do not suit at their first character. -/
def scalar (cs : List Char) : Except Fault (Read Json) :=
  match skipBlank cs with
  | '[' :: _ => .error .mismatch
  | '\x7b' :: _ => .error .mismatch
  | cs => value fuel ⟨0, true⟩ cs

def string (cs : List Char) : Except Fault (Read String) := do
  let (j, cs) ← scalar fuel cs
  return (← wanted j.str?, cs)

def optionalString (cs : List Char) : Except Fault (Read (Option String)) := do
  let (j, cs) ← scalar fuel cs
  return (← wanted (Json.optional Json.str? (some j)), cs)

/-- The kind of a declaration, which has to be known. -/
def declKind (cs : List Char) : Except Fault (Read Json) := do
  let (kind, cs) ← string fuel cs
  if Decl.kinds.contains kind then .ok (.str kind, cs) else .error .mismatch

/-- A field of a declaration; a tree, its body and the declaration are open around it. -/
def declField (cs : List Char) : Except Fault (Read Json) :=
  value fuel ⟨nestingLimit - 3, true⟩ cs

/-- The members of a declaration, in reverse; only one is its kind. -/
def declMember (members : List (String × Json)) (key : String) (cs : List Char) :
    Except Fault (Read (List (String × Json))) :=
  if key = "kind" then
    if (members.lookup key).isSome then .error .mismatch
    else do
      let (j, cs) ← declKind fuel (← colon cs)
      .ok ((key, j) :: members, cs)
  else do
    let (j, cs) ← declField fuel (← colon cs)
    .ok ((key, j) :: members, cs)

/-- The items of a declaration that is an array: first its kind. -/
def declItems (cs : List Char) : Except Fault (Read (List Json)) := do
  match ← nextItem? true cs with
  | none => .error .mismatch
  | some cs =>
    let (kind, cs) ← declKind fuel cs
    let (fields, cs) ← items (fun fields cs => do
      let (j, cs) ← declField fuel cs
      .ok (j :: fields, cs)) fuel false [] cs
    return (kind :: fields.reverse, cs)

def decl (cs : List Char) : Except Fault (Read Decl) :=
  match skipBlank cs with
  | '\x7b' :: cs => do
    let (members, cs) ← object fuel true (declMember fuel) [] cs
    return (← wanted (Decl.ofJson? (.obj members.reverse)), cs)
  | '[' :: cs => do
    let (items, cs) ← declItems fuel cs
    return (← wanted (Decl.ofJson? (.arr items)), cs)
  | cs => do
    let _ ← scalar fuel cs
    .error .mismatch

def decls (cs : List Char) : Except Fault (Read (List Decl)) :=
  match skipBlank cs with
  | '[' :: cs => do
    let (ds, cs) ← array fuel (fun ds cs => do
      let (d, cs) ← decl fuel cs
      .ok (d :: ds, cs)) [] cs
    .ok (ds.reverse, cs)
  | cs => do
    let _ ← scalar fuel cs
    .error .mismatch

def member (p : Draft) (key : String) (cs : List Char) : Except Fault (Read Draft) :=
  match key with
  | "module" => do
    let (s, cs) ← string fuel cs
    .ok ({ p with module := some (.ofText s) }, cs)
  | "file" => do
    let (s, cs) ← optionalString fuel cs
    .ok ({ p with file := some s }, cs)
  | "source" => do
    let (s, cs) ← optionalString fuel cs
    .ok ({ p with source := some s }, cs)
  | "body" => do
    let (ds, cs) ← decls fuel cs
    .ok ({ p with body := some ds }, cs)
  | _ => do
    let (_, cs) ← value fuel ⟨fuel, false⟩ cs
    .ok (p, cs)

/-- A member after its key, which comes only once. -/
def keyedMember (p : Draft) (key : String) (cs : List Char) : Except Fault (Read Draft) := do
  if p.has key then .error .mismatch else member fuel p key (← colon cs)

/-- The members of a tree that is an array; `keys` are those still to come. -/
def memberItems : List String → Bool → Draft → List Char → Except Fault (Read Draft)
  | [], _, p, cs => do return (p, ← endItems cs)
  | key :: keys, first, p, cs => do
    match ← nextItem? first cs with
    | none => return (p, ← endItems cs)
    | some cs =>
      let (p, cs) ← member fuel p key cs
      memberItems keys false p cs

end

def ofText (s : String) : Except Fault Tree :=
  let cs := s.toList
  let fuel := cs.length + 1
  match skipBlank cs with
  | '\x7b' :: cs => do
    let (p, cs) ← object fuel true (keyedMember fuel) {} cs
    finish (← p.finish, cs)
  | '[' :: cs => do
    let (p, cs) ← memberItems fuel memberKeys true {} cs
    finish (← p.finish, cs)
  | cs => do
    let _ ← scalar fuel cs
    .error .mismatch

/-! ## Values -/

def checkDeclKind (j : Json) : Except Fault Unit :=
  if j.str?.any Decl.kinds.contains then .ok () else .error .mismatch

/-- A field of a declaration, under the same limit on nesting. -/
def checkDeclField (j : Json) : Except Fault Unit :=
  if nestingLimit - 3 < j.depth then .error .malformed else .ok ()

def declOfValue (j : Json) : Except Fault Decl := do
  match j with
  | .obj members => members.forM fun (key, j) =>
      if key = "kind" then checkDeclKind j else checkDeclField j
  | .arr (kind :: fields) =>
    checkDeclKind kind
    fields.forM checkDeclField
  | _ => pure ()
  wanted (Decl.ofJson? j)

def memberOfValue (p : Draft) : String × Json → Except Fault Draft
  | ("module", j) => return { p with module := some (← wanted (QualifiedName.ofJson? j)) }
  | ("file", j) => return { p with file := some (← wanted (Json.optional Json.str? (some j))) }
  | ("source", j) => return { p with source := some (← wanted (Json.optional Json.str? (some j))) }
  | ("body", .arr items) => return { p with body := some (← items.mapM declOfValue) }
  | ("body", _) => .error .mismatch
  | _ => .ok p

/-- A value that is one tree. Of several faults the first one is reported, as in a text. -/
def ofValue : Json → Except Fault Tree
  | .obj members => do (← members.foldlM memberOfValue {}).finish
  | .arr items => do
    let p ← (memberKeys.zip items).foldlM memberOfValue {}
    if memberKeys.length < items.length then .error .malformed else p.finish
  | _ => .error .mismatch

end Tree

end TreeCompiler
