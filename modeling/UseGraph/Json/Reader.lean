import UseGraph.Json.Basic

/-!
# Reading JSON

A text is scanned one character at a time. Outside strings, everything that is
neither blank nor punctuation collects into words, and a word is one of the
three names or a numeral. Inside strings, escapes are kept as sixteen-bit
units until the closing quote, where pairs of surrogates are joined. The
reader then keeps the unfinished arrays and objects around its place on a
stack, so nesting is not limited. Whatever is collected is kept newest first.
-/

set_option autoImplicit false

namespace UseGraph.Json

inductive Token where
  | openItems
  | closeItems
  | openMembers
  | closeMembers
  | colon
  | comma
  | null
  | bool (b : Bool)
  | num (n : Decimal.Numeral)
  | str (text : Option String)
  deriving DecidableEq

def isBlank (c : Char) : Bool := c = ' ' || c = '\t' || c = '\n' || c = '\r'

def punctuation? : Char → Option Token
  | '[' => some .openItems
  | ']' => some .closeItems
  | '{' => some .openMembers
  | '}' => some .closeMembers
  | ':' => some .colon
  | ',' => some .comma
  | _ => none

def word? (w : List Char) : Option Token :=
  if w = ['n', 'u', 'l', 'l'] then some .null
  else if w = ['t', 'r', 'u', 'e'] then some (.bool true)
  else if w = ['f', 'a', 'l', 's', 'e'] then some (.bool false)
  else (Decimal.Numeral.read? w).map .num

inductive Piece where
  | plain (c : Char)
  | unit (code : Nat)
  deriving DecidableEq

def isHighSurrogate (n : Nat) : Bool := 0xD800 ≤ n && n < 0xDC00

def isLowSurrogate (n : Nat) : Bool := 0xDC00 ≤ n && n < 0xE000

def join : List Piece → Option (List Char)
  | [] => some []
  | .plain c :: r => (join r).map (c :: ·)
  | .unit n :: .unit m :: r =>
    if isHighSurrogate n then
      if isLowSurrogate m then
        (join r).map (Char.ofNat (0x10000 + (n - 0xD800) * 0x400 + (m - 0xDC00)) :: ·)
      else none
    else if isLowSurrogate n then none
    else (join (.unit m :: r)).map (Char.ofNat n :: ·)
  | .unit n :: r =>
    if isHighSurrogate n || isLowSurrogate n then none
    else (join r).map (Char.ofNat n :: ·)

def escape? : Char → Option Char
  | '"' => some '"'
  | '\\' => some '\\'
  | '/' => some '/'
  | 'b' => some '\x08'
  | 'f' => some '\x0c'
  | 'n' => some '\n'
  | 'r' => some '\r'
  | 't' => some '\t'
  | _ => none

def hexDigit? (c : Char) : Option Nat :=
  if '0' ≤ c ∧ c ≤ '9' then some (c.toNat - 48)
  else if 'a' ≤ c ∧ c ≤ 'f' then some (c.toNat - 87)
  else if 'A' ≤ c ∧ c ≤ 'F' then some (c.toNat - 55)
  else none

inductive Mode where
  | between
  | word (seen : List Char)
  | string (seen : List Piece)
  | escape (seen : List Piece)
  | hex (seen : List Piece) (missing code : Nat)

structure Scan where
  mode : Mode
  tokens : List Token

namespace Scan

def start : Scan := ⟨.between, []⟩

def stepBetween (tokens : List Token) (c : Char) : Scan :=
  if isBlank c then ⟨.between, tokens⟩
  else if c = '"' then ⟨.string [], tokens⟩
  else
    match punctuation? c with
    | some t => ⟨.between, t :: tokens⟩
    | none => ⟨.word [c], tokens⟩

def endsWord (c : Char) : Bool :=
  isBlank c || c = '"' || (punctuation? c).isSome

def step (s : Scan) (c : Char) : Option Scan :=
  match s.mode with
  | .between => some (stepBetween s.tokens c)
  | .word seen =>
    if endsWord c then
      (word? seen.reverse).map fun t => stepBetween (t :: s.tokens) c
    else some ⟨.word (c :: seen), s.tokens⟩
  | .string seen =>
    if c = '"' then
      some ⟨.between, .str ((join seen.reverse).map String.ofList) :: s.tokens⟩
    else if c = '\\' then some ⟨.escape seen, s.tokens⟩
    else if c.toNat < 0x20 then none
    else some ⟨.string (.plain c :: seen), s.tokens⟩
  | .escape seen =>
    if c = 'u' then some ⟨.hex seen 4 0, s.tokens⟩
    else (escape? c).map fun d => ⟨.string (.plain d :: seen), s.tokens⟩
  | .hex seen missing code =>
    (hexDigit? c).map fun d =>
      if missing ≤ 1 then ⟨.string (.unit (16 * code + d) :: seen), s.tokens⟩
      else ⟨.hex seen (missing - 1) (16 * code + d), s.tokens⟩

def finish? (s : Scan) : Option (List Token) :=
  match s.mode with
  | .between => some s.tokens.reverse
  | .word seen => (word? seen.reverse).map fun t => (t :: s.tokens).reverse
  | _ => none

end Scan

def tokens? (s : List Char) : Option (List Token) :=
  (s.foldlM Scan.step Scan.start).bind Scan.finish?

inductive Frame where
  | items (done : List Json)
  | members (done : List (Option String × Json)) (key : Option String)

inductive Expect where
  | value
  | itemOrClose
  | keyOrClose
  | key (done : List (Option String × Json))
  | colon (done : List (Option String × Json)) (key : Option String)
  | after (v : Json)

structure Reading where
  expect : Expect
  frames : List Frame

namespace Reading

def start : Reading := ⟨.value, []⟩

def value? (frames : List Frame) : Token → Option Reading
  | .null => some ⟨.after .null, frames⟩
  | .bool b => some ⟨.after (.bool b), frames⟩
  | .num n => some ⟨.after (.num n), frames⟩
  | .str s => some ⟨.after (.str s), frames⟩
  | .openItems => some ⟨.itemOrClose, frames⟩
  | .openMembers => some ⟨.keyOrClose, frames⟩
  | _ => none

def after? (v : Json) : List Frame → Token → Option Reading
  | .items done :: r, .comma => some ⟨.value, .items (v :: done) :: r⟩
  | .items done :: r, .closeItems => some ⟨.after (.arr (v :: done).reverse), r⟩
  | .members done k :: r, .comma => some ⟨.key ((k, v) :: done), r⟩
  | .members done k :: r, .closeMembers =>
    some ⟨.after (.obj ((k, v) :: done).reverse), r⟩
  | _, _ => none

def step (s : Reading) (t : Token) : Option Reading :=
  match s.expect, t with
  | .value, t => value? s.frames t
  | .itemOrClose, .closeItems => some ⟨.after (.arr []), s.frames⟩
  | .itemOrClose, t => value? (.items [] :: s.frames) t
  | .keyOrClose, .closeMembers => some ⟨.after (.obj []), s.frames⟩
  | .keyOrClose, .str k => some ⟨.colon [] k, s.frames⟩
  | .key done, .str k => some ⟨.colon done k, s.frames⟩
  | .colon done k, .colon => some ⟨.value, .members done k :: s.frames⟩
  | .after v, t => after? v s.frames t
  | _, _ => none

def finish? : Reading → Option Json
  | ⟨.after v, []⟩ => some v
  | _ => none

end Reading

def ofTokens? (ts : List Token) : Option Json :=
  (ts.foldlM Reading.step Reading.start).bind Reading.finish?

def read? (s : String) : Option Json := (tokens? s.toList).bind ofTokens?

end UseGraph.Json
