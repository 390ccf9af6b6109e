import UseGraph.Decimal.Numeral

/-!
# JSON values

Members of an object keep their order and may repeat a key. A string or key
in which an escape names half of a surrogate pair is well formed but is no
text; it is `none`.

A record with named fields may stand as an object or as the list of its values
in declared order. In an object unknown keys are passed over and a known key
may stand once; a list may stop early but not run on. A missing field is
`none`, which `null` is not. When a value is written, nothing stands between
tokens, and a string escapes the quote, the backslash and the characters below
the space.
-/

set_option autoImplicit false

namespace UseGraph

inductive Json where
  | null
  | bool (b : Bool)
  | num (n : Decimal.Numeral)
  | str (text : Option String)
  | arr (items : List Json)
  | obj (members : List (Option String × Json))

namespace Json

def text (s : String) : Json := .str (some s)

def nat (n : Nat) : Json := .num (.ofNat n)

def texts (ss : List String) : Json := .arr (ss.map text)

def text? : Json → Option String
  | .str s => s
  | _ => none

def nat? : Json → Option Nat
  | .num n => n.nat?
  | _ => none

def float? : Json → Option Float
  | .num n => n.toFloat?
  | _ => none

def items? : Json → Option (List Json)
  | .arr vs => some vs
  | _ => none

end Json

end UseGraph

namespace UseGraph.Json

def member? (members : List (Option String × Json)) (name : String) :
    Option (Option Json) :=
  match members.filter fun m => m.1 == some name with
  | [] => some none
  | [m] => some (some m.2)
  | _ => none

def fields? (names : List String) : Json → Option (List (Option Json))
  | .obj members =>
    if members.all fun m => m.1.isSome then names.mapM (member? members) else none
  | .arr items =>
    if items.length ≤ names.length then
      some (items.map some ++ List.replicate (names.length - items.length) none)
    else none
  | _ => none

def orDefault {α : Type} (default : α) (read : Json → Option α) : Option Json → Option α
  | none => some default
  | some v => read v

def escapeChar (c : Char) : List Char :=
  if c = '"' ∨ c = '\\' then ['\\', c]
  else if c = '\x08' then ['\\', 'b']
  else if c = '\t' then ['\\', 't']
  else if c = '\n' then ['\\', 'n']
  else if c = '\x0c' then ['\\', 'f']
  else if c = '\r' then ['\\', 'r']
  else if c.toNat < 0x20 then
    ['\\', 'u', '0', '0', Nat.digitChar (c.toNat / 16), Nat.digitChar (c.toNat % 16)]
  else [c]

def renderString : Option String → List Char
  | some s => '"' :: s.toList.flatMap escapeChar ++ ['"']
  | none => ['"', '\\', 'u', 'd', '8', '0', '0', '"']

mutual

def render : Json → List Char
  | .null => ['n', 'u', 'l', 'l']
  | .bool true => ['t', 'r', 'u', 'e']
  | .bool false => ['f', 'a', 'l', 's', 'e']
  | .num n => n.render
  | .str s => renderString s
  | .arr vs => '[' :: renderItems vs
  | .obj ms => '{' :: renderMembers ms

def renderItems : List Json → List Char
  | [] => [']']
  | v :: vs => render v ++ moreItems vs

def moreItems : List Json → List Char
  | [] => [']']
  | v :: vs => ',' :: render v ++ moreItems vs

def renderMembers : List (Option String × Json) → List Char
  | [] => ['}']
  | (k, v) :: ms => renderString k ++ ':' :: render v ++ moreMembers ms

def moreMembers : List (Option String × Json) → List Char
  | [] => ['}']
  | (k, v) :: ms => ',' :: renderString k ++ ':' :: render v ++ moreMembers ms

end

def write (v : Json) : String := String.ofList v.render

end UseGraph.Json
