import UseGraph.Quoted
import UseGraph.Json.Reader

/-!
# Documents, namings and why either is refused

A document lists modules and weighted links between their ids, of which either
end may name an id that no node has. A naming places every id under one root
segment, so that all names share a root; it is the standard one when no text
is given.
-/

set_option autoImplicit false

namespace UseGraph

inductive Fault where
  | unreadable
  | malformedName (name : String)
  | emptyDelimiter
  | duplicateRecord (name : String)
  | unknownSortOrder (name : String)
  | missingRoot
  | multipleRoots (first second : String)
  deriving DecidableEq, Repr

open Text in
def Fault.message : Fault → String
  | .unreadable => "invalid graph document"
  | .malformedName n => "malformed record name " ++ Quoted.encode n
  | .emptyDelimiter => "path delimiter must not be empty"
  | .duplicateRecord n => "duplicate record " ++ Quoted.encode n
  | .unknownSortOrder n => "unknown sort order " ++ Quoted.encode n
  | .missingRoot => "no root record"
  | .multipleRoots a b =>
    "multiple roots: " ++ Quoted.encode a ++ " and " ++ Quoted.encode b

structure Naming where
  delimiter : String
  root : String
  deriving DecidableEq, Repr

namespace Naming

def standard : Naming := ⟨".", "root"⟩

def qualify (n : Naming) (id : String) : String := n.root ++ n.delimiter ++ id

def ofJson? (v : Json) : Option Naming := do
  match ← v.fields? ["delimiter", "root"] with
  | [delimiter, root] =>
    return ⟨← Json.orDefault standard.delimiter Json.text? delimiter,
      ← Json.orDefault standard.root Json.text? root⟩
  | _ => none

def read : Option String → Except Fault Naming
  | none => .ok standard
  | some s =>
    match (Json.read? s).bind ofJson? with
    | some n => .ok n
    | none => .error .unreadable

end Naming

namespace Document

structure Node where
  id : String
  group : UInt32

structure Link where
  source : String
  target : String
  value : Float

def Link.isLoop (l : Link) : Bool := l.source == l.target

end Document

structure Document where
  nodes : List Document.Node
  links : List Document.Link

namespace Document

def group? (v : Json) : Option UInt32 :=
  v.nat?.bind fun n => if n < UInt32.size then some n.toUInt32 else none

def Node.ofJson? (v : Json) : Option Node := do
  match ← v.fields? ["id", "group"] with
  | [some id, group] => return ⟨← id.text?, ← Json.orDefault 0 group? group⟩
  | _ => none

def Link.ofJson? (v : Json) : Option Link := do
  match ← v.fields? ["source", "target", "value"] with
  | [some source, some target, value] =>
    return ⟨← source.text?, ← target.text?, ← Json.orDefault 1.0 Json.float? value⟩
  | _ => none

def list? {α : Type} (read : Json → Option α) (v : Json) : Option (List α) :=
  v.items?.bind fun vs => vs.mapM read

def ofJson? (v : Json) : Option Document := do
  match ← v.fields? ["nodes", "links"] with
  | [nodes, links] =>
    return ⟨← Json.orDefault [] (list? Node.ofJson?) nodes,
      ← Json.orDefault [] (list? Link.ofJson?) links⟩
  | _ => none

def read (s : String) : Except Fault Document :=
  match (Json.read? s).bind ofJson? with
  | some d => .ok d
  | none => .error .unreadable

end Document

end UseGraph
