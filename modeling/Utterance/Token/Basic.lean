import Utterance.Diagnostic
import Utterance.Scalar.Basic

/-!
# Tokens

A token has a kind, a value and the two positions between which it stands. Literals and words carry their value,
punctuation carries nothing. `Token.printed` is how listings show a token.
-/

namespace Utterance

namespace Token

/-- The kinds of tokens. -/
inductive Kind where
  | int | float | string | regex | identifier | keyword
  | plus | minus | mul | div | mod
  | lparen | rparen | lsquare | rsquare | lcurly | rcurly | lsetbrace | rsetbrace | langle | rangle
  | ampersand | caret | ee | ne | lt | gt | lte | gte
  | comma | colon | semicolon | atSign | arrow | newline | eof
deriving DecidableEq, Repr, Inhabited

namespace Kind

def name : Kind → String
  | int => "INT"
  | float => "FLOAT"
  | string => "STRING"
  | regex => "REGEX"
  | identifier => "IDENTIFIER"
  | keyword => "KEYWORD"
  | plus => "PLUS"
  | minus => "MINUS"
  | mul => "MUL"
  | div => "DIV"
  | mod => "MOD"
  | lparen => "LPAREN"
  | rparen => "RPAREN"
  | lsquare => "LSQUARE"
  | rsquare => "RSQUARE"
  | lcurly => "LCURLY"
  | rcurly => "RCURLY"
  | lsetbrace => "LSETBRACE"
  | rsetbrace => "RSETBRACE"
  | langle => "LANGLE"
  | rangle => "RANGLE"
  | ampersand => "AMPERSAND"
  | caret => "CARET"
  | ee => "EE"
  | ne => "NE"
  | lt => "LT"
  | gt => "GT"
  | lte => "LTE"
  | gte => "GTE"
  | comma => "COMMA"
  | colon => "COLON"
  | semicolon => "SEMICOLON"
  | atSign => "AT"
  | arrow => "ARROW"
  | newline => "NEWLINE"
  | eof => "EOF"

def all : List Kind :=
  [int, float, string, regex, identifier, keyword, plus, minus, mul, div, mod, lparen, rparen, lsquare, rsquare,
    lcurly, rcurly, lsetbrace, rsetbrace, langle, rangle, ampersand, caret, ee, ne, lt, gt, lte, gte, comma, colon,
    semicolon, atSign, arrow, newline, eof]

def ofName? (s : String) : Option Kind := all.find? (·.name == s)

end Kind

end Token

structure Token where
  kind : Token.Kind
  value : Scalar
  start : Position
  stop : Position
deriving Inhabited

namespace Token

def keywords : List String :=
  ["put", "in", "keep", "as", "show", "when", "otherwise", "end", "cycle", "from", "to", "step", "each", "through",
    "as long as", "repeat while", "make function", "lambda", "give", "and", "or", "not", "true", "false", "cut",
    "skip", "attempt", "handle", "bring", "share", "check", "whether", "default", "where"]

/-- A token without value that is one character long. -/
def mark (kind : Kind) (start : Position) : Token := ⟨kind, .absent, start, start.next⟩

def isKeyword (t : Token) (word : String) : Bool :=
  t.kind == .keyword && t.value == .text word

def text (t : Token) : String :=
  match t.value with
  | .text s => s
  | _ => ""

def printed (t : Token) : Except Fault String :=
  if t.value.isFalsy then .ok t.kind.name
  else return t.kind.name ++ ":" ++ (← t.value.printed)

end Token

/-- What scanning a text yields piece by piece: tokens, or the diagnostic of a piece that is none. -/
inductive Lexeme where
  | token (t : Token)
  | refused (d : Diagnostic)

end Utterance
