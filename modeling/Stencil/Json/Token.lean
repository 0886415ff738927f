import Stencil.Json.Number

/-!
# Tokens of JSON text

Text is cut into tokens character by character. Blanks separate tokens; inside quotes only printable
characters and complete escapes are allowed. A text is unreadable unless every escaped surrogate
stands beside its other half.
-/

namespace Stencil.Json

/-- A token of JSON text. -/
inductive Token where
  | openBracket
  | closeBracket
  | openBrace
  | closeBrace
  | comma
  | colon
  /-- A text, or none if it is unreadable. -/
  | string (value : Option String)
  /-- A number, a truth value or null. -/
  | atom (value : Json)

/-- A text inside quotes, as far as it is read. -/
structure Lexer.Quoted where
  /-- The characters, in reverse order. -/
  read : List Char := []
  /-- The first half of a surrogate pair that stands at the end. -/
  high : Option Nat := none
  /-- Whether half of a surrogate pair stands alone. -/
  broken : Bool := false

/-- What the lexer is in the middle of. Characters already read stand in reverse order. -/
inductive Lexer.Mode where
  | between
  | word (read : List Char)
  | number (read : List Char)
  | text (quoted : Quoted)
  | escape (quoted : Quoted)
  /-- Inside a code point: how many digits are missing, and the value so far. -/
  | code (quoted : Quoted) (missing value : Nat)

/-- The state of the lexer. The tokens already read stand in reverse order. -/
structure Lexer where
  tokens : List Token
  mode : Lexer.Mode

namespace Lexer

/-- Whether a character separates tokens. -/
def isBlank (c : Char) : Bool := c == ' ' || c == '\t' || c == '\n' || c == '\r'

/-- Whether a character can stand inside a number. -/
def isNumberPart (c : Char) : Bool :=
  c.isDigit || c == '-' || c == '+' || c == '.' || c == 'e' || c == 'E'

/-- The token of a word. -/
def word? (read : List Char) : Option Token :=
  match String.ofList read.reverse with
  | "null" => some (.atom .null)
  | "true" => some (.atom (.bool true))
  | "false" => some (.atom (.bool false))
  | _ => none

/-- The token of a number. -/
def number? (read : List Char) : Option Token :=
  (Number.parse? read.reverse).map .atom

/-- Begins a token, or skips a blank. -/
def begin? (tokens : List Token) (c : Char) : Option Lexer :=
  if isBlank c then some ⟨tokens, .between⟩
  else if c.isDigit || c == '-' then some ⟨tokens, .number [c]⟩
  else if c.isAlpha then some ⟨tokens, .word [c]⟩
  else
    match c with
    | '[' => some ⟨.openBracket :: tokens, .between⟩
    | ']' => some ⟨.closeBracket :: tokens, .between⟩
    | '\x7b' => some ⟨.openBrace :: tokens, .between⟩
    | '\x7d' => some ⟨.closeBrace :: tokens, .between⟩
    | ',' => some ⟨.comma :: tokens, .between⟩
    | ':' => some ⟨.colon :: tokens, .between⟩
    | '"' => some ⟨tokens, .text {}⟩
    | _ => none

/-- The character that a one-letter escape stands for. -/
def escaped? : Char → Option Char
  | '"' => some '"'
  | '\\' => some '\\'
  | '/' => some '/'
  | 'b' => some '\x08'
  | 'f' => some '\x0c'
  | 'n' => some '\n'
  | 'r' => some '\r'
  | 't' => some '\t'
  | _ => none

/-- The value of a hexadecimal digit. -/
def hexValue? (c : Char) : Option Nat :=
  if c.isDigit then some (c.toNat - '0'.toNat)
  else if 'a' ≤ c ∧ c ≤ 'f' then some (c.toNat - 'a'.toNat + 10)
  else if 'A' ≤ c ∧ c ≤ 'F' then some (c.toNat - 'A'.toNat + 10)
  else none

namespace Quoted

/-- Adds a character. Half of a surrogate pair before it stands alone. -/
def push (q : Quoted) (c : Char) : Quoted := ⟨c :: q.read, none, q.broken || q.high.isSome⟩

/-- Adds an escaped code unit: it is a character, or half of a surrogate pair. -/
def pushUnit (q : Quoted) (value : Nat) : Quoted :=
  let isHigh := 0xd800 ≤ value && value < 0xdc00
  let isLow := 0xdc00 ≤ value && value < 0xe000
  match q.high with
  | some first =>
    if isLow then
      ⟨Char.ofNat (0x10000 + (first - 0xd800) * 0x400 + (value - 0xdc00)) :: q.read, none, q.broken⟩
    else ⟨q.read, none, true⟩
  | none =>
    if isHigh then ⟨q.read, some value, q.broken⟩
    else if isLow then ⟨q.read, none, true⟩
    else ⟨Char.ofNat value :: q.read, none, q.broken⟩

/-- The token of a text. -/
def token (q : Quoted) : Token :=
  .string (if q.broken || q.high.isSome then none else some (String.ofList q.read.reverse))

end Quoted

/-- Takes one character. -/
def step (lexer : Lexer) (c : Char) : Option Lexer :=
  match lexer.mode with
  | .between => begin? lexer.tokens c
  | .word read =>
    if c.isAlpha then some { lexer with mode := .word (c :: read) }
    else do begin? ((← word? read) :: lexer.tokens) c
  | .number read =>
    if isNumberPart c then some { lexer with mode := .number (c :: read) }
    else do begin? ((← number? read) :: lexer.tokens) c
  | .text quoted =>
    match c with
    | '\\' => some { lexer with mode := .escape quoted }
    | '"' => some ⟨quoted.token :: lexer.tokens, .between⟩
    | c => if c < ' ' then none else some { lexer with mode := .text (quoted.push c) }
  | .escape quoted =>
    if c == 'u' then some { lexer with mode := .code quoted 4 0 }
    else (escaped? c).map fun e => { lexer with mode := .text (quoted.push e) }
  | .code quoted missing value => do
    let value := value * 16 + (← hexValue? c)
    if missing ≤ 1 then return { lexer with mode := .text (quoted.pushUnit value) }
    else return { lexer with mode := .code quoted (missing - 1) value }

/-- Ends the text. -/
def finish? (lexer : Lexer) : Option (List Token) :=
  match lexer.mode with
  | .between => some lexer.tokens.reverse
  | .word read => (word? read).map fun t => (t :: lexer.tokens).reverse
  | .number read => (number? read).map fun t => (t :: lexer.tokens).reverse
  | .text .. | .escape .. | .code .. => none

end Lexer

/-- The tokens of a text. -/
def Token.scan? (text : String) : Option (List Token) := do
  let lexer ← text.toList.foldlM Lexer.step ⟨[], .between⟩
  lexer.finish?

end Stencil.Json
