import Utterance.Token.Cursor
import Utterance.Scalar.Integer

/-!
# From texts to tokens

`Token.scan` reads a source from left to right. Blanks and comments separate tokens, `;` and line ends are
tokens, and angle brackets are told from comparisons by their surroundings. A character that begins no token ends
the scan with a diagnostic. Where a decision needs a character after the end of the text, the scan ends with a
fault; a text that ends with a line end never gets there.
-/

namespace Utterance.Token

/-- A fault, and where the scanner stood. -/
structure Stuck where
  fault : Fault
  cursor : Cursor

/-- What a scanner of one token gives: the token and the cursor after it. -/
abbrev Scanned (α : Type) := Except Stuck (α × Cursor)

/-- The digits that a text begins with, with at most one point among them, and the rest. -/
def numeral (s : List Char) : List Char × List Char × List Char :=
  let whole := s.takeWhile Char.isDigit
  match s.dropWhile Char.isDigit with
  | '.' :: rest => (whole, '.' :: rest.takeWhile Char.isDigit, rest.dropWhile Char.isDigit)
  | rest => (whole, [], rest)

def digitsValue (ds : List Char) : Nat := ds.foldl (fun n d => n * 10 + (d.toNat - '0'.toNat)) 0

def integerValue (ds : List Char) : Except Fault Scalar :=
  if ds.isEmpty then .error (.badIntegerText "''")
  else if Fault.digitLimit < ds.length then .error (.tooManyDigitsIn ds.length)
  else .ok (.int (digitsValue ds))

/-- The double that digits before and after a point spell. -/
def decimalValue (whole fraction : List Char) : Except Fault Scalar :=
  if whole.isEmpty && fraction.isEmpty then .error (.badDecimalText "'.'")
  else .ok (.float (Floating.ofDecimal (digitsValue (whole ++ fraction)) fraction.length))

def scanNumber (cur : Cursor) : Scanned Token :=
  let (whole, fraction, rest) := numeral cur.rest
  let after := cur.passed (whole ++ fraction) rest
  let (kind, value) :=
    match fraction with
    | [] => (Kind.int, integerValue whole)
    | _ :: places => (Kind.float, decimalValue whole places)
  match value with
  | .ok v => .ok (⟨kind, v, cur.pos, after.pos⟩, after)
  | .error f => .error ⟨f, after⟩

def unescape (c : Char) : Char :=
  match c with
  | 'n' => '\n'
  | 't' => '\t'
  | c => c

/-- Reads a text up to its closing quote: its value, what was read, and the rest, which begins with the closing
quote unless the text is not closed. `escaped` says that a backslash came just before. -/
def stringBody : Bool → List Char → List Char × List Char × List Char
  | _, [] => ([], [], [])
  | true, c :: cs =>
    let (value, raw, rest) := stringBody false cs
    (unescape c :: value, c :: raw, rest)
  | false, c :: cs =>
    if c = '"' then ([], [], c :: cs)
    else if c = '\\' then
      let (value, raw, rest) := stringBody true cs
      (value, c :: raw, rest)
    else
      let (value, raw, rest) := stringBody false cs
      (c :: value, c :: raw, rest)

/-- Reads a quoted text; the quote at its end may be missing. -/
def scanString (cur : Cursor) : Token × Cursor :=
  let inside := cur.next
  let (value, raw, rest) := stringBody false inside.rest
  let after := (inside.passed raw rest).next
  (⟨.string, .text (String.ofList value), cur.pos, after.pos⟩, after)

/-- Reads a pattern up to its closing quote: what was read, and the rest. A quote right after a backslash belongs
to the pattern; `escaped` says that a backslash came just before. -/
def regexBody (quote : Char) : Bool → List Char → List Char × List Char
  | _, [] => ([], [])
  | escaped, c :: cs =>
    if c = quote ∧ !escaped then ([], c :: cs)
    else
      let (raw, rest) := regexBody quote (c == '\\') cs
      (c :: raw, rest)

/-- Reads a pattern; the cursor stands at the letter before its opening quote. -/
def scanRegex (cur : Cursor) : Except Diagnostic Token × Cursor :=
  let opening := cur.next
  match opening.current? with
  | some quote =>
    if quote = '"' ∨ quote = '\'' then
      let inside := opening.next
      let (raw, rest) := regexBody quote false inside.rest
      let closing := inside.passed raw rest
      if closing.current? = some quote then
        (.ok ⟨.regex, .text (String.ofList raw), cur.pos, closing.next.pos⟩, closing.next)
      else
        (.error (.illegalCharacter cur.pos closing.pos ("Expected closing " ++ String.singleton quote)), closing)
    else (.error (.illegalCharacter cur.pos opening.pos "Expected '\"' or \"'\" after 'r'"), opening)
  | none => (.error (.illegalCharacter cur.pos opening.pos "Expected '\"' or \"'\" after 'r'"), opening)

/-- Tries to extend a phrase by at most `n` more words to a keyword of several words. -/
def extendPhrase : Nat → String → Cursor → Except Stuck (Option (String × Cursor))
  | 0, _, _ => .ok none
  | n + 1, phrase, cur =>
    let wordStart := (cur.takeWhile Cursor.isSpace).2
    match wordStart.current? with
    | none => .error ⟨.endOfText, wordStart⟩
    | some c =>
      if Cursor.isLetter c then
        let (word, after) := wordStart.takeWhile Cursor.isWordChar
        let longer := phrase ++ " " ++ String.ofList word
        if keywords.contains longer then .ok (some (longer, after)) else extendPhrase n longer after
      else .ok none

/-- The words that can begin a keyword of several words. -/
def phraseStarts : List String := ["as", "make", "each", "repeat"]

/-- Reads an identifier or a keyword, or the pattern that the letter `r` before a quote announces. -/
def scanWord (cur : Cursor) : Scanned Lexeme :=
  let (word, after) := cur.takeWhile Cursor.isWordChar
  let id := String.ofList word
  if id = "r" ∧ (after.current? = some '"' ∨ after.current? = some '\'') then
    match scanRegex cur with
    | (.ok t, end_) => .ok (.token t, end_)
    | (.error d, end_) => .ok (.refused d, end_)
  else
    let plain : Lexeme × Cursor :=
      (.token ⟨if keywords.contains id then .keyword else .identifier, .text id, cur.pos, after.pos⟩, after)
    if phraseStarts.contains id then
      match extendPhrase 2 id after with
      | .error stuck => .error stuck
      | .ok (some (phrase, end_)) => .ok (.token ⟨.keyword, .text phrase, cur.pos, end_.pos⟩, end_)
      | .ok none => .ok plain
    else .ok plain

/-- A token that ends where the cursor `after` stands. -/
def upTo (kind : Kind) (cur after : Cursor) : Token := ⟨kind, .absent, cur.pos, after.pos⟩

def scanNotEquals (cur : Cursor) : Except Diagnostic Token × Cursor :=
  let after := cur.next
  let end_ := after.next
  if after.current? = some '=' then (.ok (upTo .ne cur end_), end_)
  else (.error (.illegalCharacter cur.pos end_.pos "'=' (after '!')"), end_)

def scanEquals (cur : Cursor) : Token × Cursor :=
  let after := cur.next
  match after.current? with
  | some '=' => (upTo .ee cur after.next, after.next)
  | some '>' => (upTo .arrow cur after.next, after.next)
  | _ => (⟨.identifier, .text "=", cur.pos, after.pos⟩, after)

def comparedKinds : List Kind := [.identifier, .int, .float, .rparen, .rsquare, .rcurly, .rangle]

/-- Whether a character can begin the first element of a tuple. -/
def opensElement (c : Char) : Bool :=
  c.isDigit || Cursor.isLetter c || ['"', '[', '{', '<', '>', '-'].contains c

/-- Reads `<`, `<=` or the opening bracket of a tuple, depending on what stands before and after. -/
def scanLess (last : Option Token) (cur : Cursor) : Scanned Token :=
  let after := cur.next
  let bracket : Token × Cursor := (upTo .langle cur after, after)
  let less : Token × Cursor := (upTo .lt cur after, after)
  if after.current? = some '=' then .ok (upTo .lte cur after.next, after.next)
  else if after.current? = some '>' then .ok bracket
  else if last.any fun t => comparedKinds.contains t.kind then .ok less
  else
    match after.rest.dropWhile Cursor.isSpace with
    | [] => .error ⟨.endOfText, after⟩
    | c :: _ => .ok (if opensElement c then bracket else less)

def closedKinds : List Kind :=
  [.int, .float, .string, .identifier, .rparen, .rsquare, .rangle, .comma, .langle]

def endsElement (t : Token) : Bool :=
  closedKinds.contains t.kind || t.isKeyword "true" || t.isKeyword "false"

def wordsAfterTuple : List String := ["in", "show", "and", "or", "plus", "minus", "times", "over"]

/-- Reads `>`, `>=` or the closing bracket of a tuple, depending on what stands before and after. -/
def scanGreater (last : Option Token) (cur : Cursor) : Scanned Token :=
  let after := cur.next
  let bracket : Token × Cursor := (upTo .rangle cur after, after)
  let greater : Token × Cursor := (upTo .gt cur after, after)
  if after.current? = some '=' then .ok (upTo .gte cur after.next, after.next)
  else
    match last with
    | none => .ok greater
    | some t =>
      if !endsElement t then .ok greater
      else if t.kind = .langle then .ok bracket
      else
        match after.rest with
        | [] => .error ⟨.endOfText, after⟩
        | c :: cs =>
          if [',', ';', '\n', ')', ']', '}', '>'].contains c then .ok bracket
          else if Cursor.isSpace c then
            match cs with
            | [] => .error ⟨.endOfText, after⟩
            | d :: _ =>
              if [':', ',', '>', ';', ')', '\n'].contains d then .ok bracket
              else if Text.isAlphabetic d && wordsAfterTuple.contains (String.ofList after.nextWord) then .ok bracket
              else .ok greater
          else .ok greater

/-- Reads a comment up to its closing mark: what was read, and the rest. -/
def blockComment : List Char → List Char × List Char
  | [] => ([], [])
  | c :: cs =>
    match c, cs with
    | ']', '$' :: rest => ([']', '$'], rest)
    | _, _ =>
      let (raw, rest) := blockComment cs
      (c :: raw, rest)

/-- The cursor after a comment: `$[ … ]$`, or from `$` to the end of the line. -/
def skipComment (cur : Cursor) : Cursor :=
  let after := cur.next
  if after.current? = some '[' then
    let inside := after.next
    let (raw, rest) := blockComment inside.rest
    inside.passed raw rest
  else (after.takeWhile (· != '\n')).2

/-- Why a scan ended early. -/
inductive Refusal where
  | diagnostic (d : Diagnostic)
  | fault (stuck : Stuck)

/-- The kinds of the marks that are one character long and never part of a longer one. -/
def markKind? : Char → Option Kind
  | ';' | '\n' => some .newline
  | '+' => some .plus
  | '-' => some .minus
  | '*' => some .mul
  | '/' => some .div
  | '%' => some .mod
  | '(' => some .lparen
  | ')' => some .rparen
  | '[' => some .lsquare
  | ']' => some .rsquare
  | '}' => some .rcurly
  | '&' => some .ampersand
  | '^' => some .caret
  | ',' => some .comma
  | '@' => some .atSign
  | _ => none

/-- A mark of one or two characters; the longer one ends before its second character. -/
def scanPair (short long : Kind) (second : Char) (cur : Cursor) : Token × Cursor :=
  let after := cur.next
  if after.current? = some second then (upTo long cur after, after.next) else (mark short cur.pos, after)

/-- One step of a scan. -/
inductive Step where
  /-- Nothing but blanks or a comment was passed. -/
  | trivia (cur : Cursor)
  | lexeme (x : Lexeme) (cur : Cursor)
  | refuse (r : Refusal)

namespace Step

def ofToken (p : Token × Cursor) : Step := lexeme (.token p.1) p.2

def ofScanned : Scanned Token → Step
  | .ok p => ofToken p
  | .error stuck => refuse (.fault stuck)

end Step

/-- The step at a cursor whose current character is `c`, after the token `last`. -/
def step (last : Option Token) (cur : Cursor) (c : Char) : Step :=
  if Cursor.isSpace c then .trivia cur.next
  else if c = '$' then .trivia (skipComment cur)
  else if c.isDigit then .ofScanned (scanNumber cur)
  else if Cursor.isLetter c then
    match scanWord cur with
    | .ok (x, after) => .lexeme x after
    | .error stuck => .refuse (.fault stuck)
  else if c = '"' then .ofToken (scanString cur)
  else if c = '{' then .ofToken (scanPair .lcurly .lsetbrace ':' cur)
  else if c = ':' then .ofToken (scanPair .colon .rsetbrace '}' cur)
  else if c = '!' then
    match scanNotEquals cur with
    | (.ok t, after) => .ofToken (t, after)
    | (.error d, _) => .refuse (.diagnostic d)
  else if c = '=' then .ofToken (scanEquals cur)
  else if c = '<' then .ofScanned (scanLess last cur)
  else if c = '>' then .ofScanned (scanGreater last cur)
  else
    match markKind? c with
    | some kind => .ofToken (mark kind cur.pos, cur.next)
    | none =>
      .refuse (.diagnostic (.illegalCharacter cur.pos cur.next.pos ("'" ++ String.singleton c ++ "'")))

def ofLexeme? : Lexeme → Option Token
  | .token t => some t
  | .refused _ => none

/-- The lexemes of a step after the token `last` and of what follows it, given how that is scanned. -/
def Step.followedBy (scanAfter : Option Token → Cursor → Except Refusal (List Lexeme)) (last : Option Token) :
    Step → Except Refusal (List Lexeme)
  | .trivia after => scanAfter last after
  | .lexeme x after => (scanAfter (ofLexeme? x) after).map (x :: ·)
  | .refuse r => .error r

/-- Scans what a cursor has left. Every step passes at least one character, so that as many steps as there are
characters are enough. -/
def scanFrom : Nat → Option Token → Cursor → Except Refusal (List Lexeme)
  | fuel, last, cur =>
    match cur.rest with
    | [] => .ok [.token (mark .eof cur.pos)]
    | c :: _ =>
      match fuel with
      | 0 => .ok []
      | fuel + 1 => (step last cur c).followedBy (scanFrom fuel) last

/-- The lexemes of a source; the last one is a token that marks the end. -/
def scan (source : Source) : Except Refusal (List Lexeme) :=
  let cur := Cursor.start source
  scanFrom cur.rest.length none cur

end Utterance.Token
