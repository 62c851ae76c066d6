/-!
# Faults

A fault is a failure that no program of the language can handle: it ends the running program, unlike a
diagnostic, which `attempt … handle` can catch. Every fault is one of a closed list of causes
(`Fault`), has a kind (`Fault.kind`) and a one-line message (`Fault.message`).
-/

namespace Utterance

/-- The families of faults. -/
inductive Fault.Kind where
  | missing | type | value | overflow | endOfInput | key | index | fileMissing | isDirectory | notDirectory
  | system | decoding
deriving DecidableEq, Repr

/-- The causes of a fault. Names of types, attributes and operators are kept as texts, because they occur in
messages only. -/
inductive Fault where
  /-- An operation asked for a property that values of this type do not have. -/
  | noAttribute (type property : String)
  /-- The scanner needed one more character than the text has. -/
  | endOfText
  /-- Two scalars of types without a common order were compared. -/
  | unordered (operator left right : String)
  /-- An arithmetic operator does not exist for two scalar types. -/
  | unsupported (operator left right : String)
  /-- Something that is no text was appended to a text. -/
  | notAppendable (type : String)
  /-- A text was repeated by something that is no integer. -/
  | badRepeat (type : String)
  /-- A text was repeated by a number that is no machine integer. -/
  | repeatTooLarge
  /-- A repeated text would have more characters than can be counted. -/
  | repeatTooLong
  /-- A text without a directive was filled in with a value. -/
  | leftoverArgument
  /-- A text cell that holds nothing was shown. -/
  | absentText
  /-- Something without length was measured. -/
  | noLength (type : String)
  /-- Something that is no sequence was cut. -/
  | notSubscriptable (type : String)
  /-- Something that is no sequence was walked. -/
  | notIterable (type : String)
  /-- A part of a joined list is no text. -/
  | badItem (position : Nat) (type : String)
  /-- An argument of a replacement is no text. -/
  | badReplaceArgument (position : Nat)
  /-- A pattern is no text. -/
  | badPattern
  /-- The subject of a pattern is no text. -/
  | badSubject (type : String)
  /-- The replacement of a pattern is no text. -/
  | badTemplate (type : String)
  /-- A file name is no text. -/
  | badFileName (type : String)
  /-- Something that is neither number nor text was turned into an integer. -/
  | badIntegerSource (type : String)
  /-- A text does not spell an integer; the text is given in quoted form. -/
  | badIntegerText (quoted : String)
  /-- A text does not spell a decimal number; the text is given in quoted form. -/
  | badDecimalText (quoted : String)
  | integerTooLarge
  | quotientTooLarge
  | infinityToInteger
  | nanToInteger
  /-- An integer has too many digits to be written. -/
  | tooManyDigits
  /-- A text has too many digits to be read as an integer. -/
  | tooManyDigitsIn (count : Nat)
  | emptySeparator
  | endOfInput
  /-- A name is not bound in the table it should be removed from; the name is given in quoted form. -/
  | noKey (quoted : String)
  /-- The path is given in quoted form. -/
  | noFile (quoted : String)
  | isDirectory (quoted : String)
  | notDirectory (quoted : String)
  | nameTooLong (quoted : String)
  | nullInPath
  /-- Bytes that are no text; `first` and `last` are the offsets of the offending bytes. -/
  | undecodable (byte : Nat) (first last : Nat) (reason : String)
  /-- A replacement names a group that the pattern does not have; the name is given in quoted form. -/
  | unknownGroup (quoted : String)
  /-- A pattern repeats something too often. -/
  | repetitionTooLarge
  /-- A pattern asks for two alphabets at once. -/
  | alphabetsClash
  /-- An index of a text lies outside of it. -/
  | textIndex
deriving DecidableEq, Repr

namespace Fault

/-- The longest decimal text of an integer, in digits. -/
def digitLimit : Nat := 4300

def kind : Fault → Kind
  | noAttribute .. => .missing
  | endOfText | unordered .. | unsupported .. | notAppendable _ | badRepeat _ | leftoverArgument | absentText
  | noLength _ | notSubscriptable _ | notIterable _ | badItem .. | badReplaceArgument _ | badPattern
  | badSubject _ | badTemplate _ | badFileName _ | badIntegerSource _ => .type
  | badIntegerText _ | badDecimalText _ | nanToInteger | tooManyDigits | tooManyDigitsIn _ | emptySeparator
  | nullInPath | alphabetsClash => .value
  | repeatTooLarge | repeatTooLong | repetitionTooLarge | integerTooLarge | quotientTooLarge | infinityToInteger =>
    .overflow
  | endOfInput => .endOfInput
  | noKey _ => .key
  | noFile _ => .fileMissing
  | isDirectory _ => .isDirectory
  | notDirectory _ => .notDirectory
  | nameTooLong _ => .system
  | undecodable .. => .decoding
  | unknownGroup _ | textIndex => .index

def hexByte (n : Nat) : String :=
  let digits := Nat.toDigits 16 n
  String.ofList (if digits.length < 2 then '0' :: digits else digits)

def message : Fault → String
  | noAttribute type property => "'" ++ type ++ "' object has no attribute '" ++ property ++ "'"
  | endOfText => "'in <string>' requires string as left operand, not NoneType"
  | unordered op l r => "'" ++ op ++ "' not supported between instances of '" ++ l ++ "' and '" ++ r ++ "'"
  | unsupported op l r => "unsupported operand type(s) for " ++ op ++ ": '" ++ l ++ "' and '" ++ r ++ "'"
  | notAppendable type => "can only concatenate str (not \"" ++ type ++ "\") to str"
  | badRepeat type => "can't multiply sequence by non-int of type '" ++ type ++ "'"
  | repeatTooLarge => "cannot fit 'int' into an index-sized integer"
  | repeatTooLong => "repeated string is too long"
  | leftoverArgument => "not all arguments converted during string formatting"
  | absentText => "__str__ returned non-string (type NoneType)"
  | noLength type => "object of type '" ++ type ++ "' has no len()"
  | notSubscriptable type => "'" ++ type ++ "' object is not subscriptable"
  | notIterable type => "'" ++ type ++ "' object is not iterable"
  | badItem position type =>
    "sequence item " ++ toString position ++ ": expected str instance, " ++ type ++ " found"
  | badReplaceArgument position => "replace() argument " ++ toString position ++ " must be str, not None"
  | badPattern => "first argument must be string or compiled pattern"
  | badSubject type => "expected string or bytes-like object, got '" ++ type ++ "'"
  | badTemplate type => "decoding to str: need a bytes-like object, " ++ type ++ " found"
  | badFileName type => "expected str, bytes or os.PathLike object, not " ++ type
  | badIntegerSource type =>
    "int() argument must be a string, a bytes-like object or a real number, not '" ++ type ++ "'"
  | badIntegerText quoted => "invalid literal for int() with base 10: " ++ quoted
  | badDecimalText quoted => "could not convert string to float: " ++ quoted
  | integerTooLarge => "int too large to convert to float"
  | quotientTooLarge => "integer division result too large for a float"
  | infinityToInteger => "cannot convert float infinity to integer"
  | nanToInteger => "cannot convert float NaN to integer"
  | tooManyDigits =>
    "Exceeds the limit (" ++ toString digitLimit ++ " digits) for integer string conversion; " ++
      "use sys.set_int_max_str_digits() to increase the limit"
  | tooManyDigitsIn count =>
    "Exceeds the limit (" ++ toString digitLimit ++ " digits) for integer string conversion: value has " ++
      toString count ++ " digits; use sys.set_int_max_str_digits() to increase the limit"
  | emptySeparator => "empty separator"
  | endOfInput => "EOF when reading a line"
  | noKey quoted => quoted
  | noFile quoted => "[Errno 2] No such file or directory: " ++ quoted
  | isDirectory quoted => "[Errno 21] Is a directory: " ++ quoted
  | notDirectory quoted => "[Errno 20] Not a directory: " ++ quoted
  | nameTooLong quoted => "[Errno 36] File name too long: " ++ quoted
  | nullInPath => "embedded null byte"
  | undecodable byte first last reason =>
    if first = last then
      "'utf-8' codec can't decode byte 0x" ++ hexByte byte ++ " in position " ++ toString first ++ ": " ++ reason
    else
      "'utf-8' codec can't decode bytes in position " ++ toString first ++ "-" ++ toString last ++ ": " ++ reason
  | unknownGroup quoted => "unknown group name " ++ quoted
  | repetitionTooLarge => "the repetition number is too large"
  | alphabetsClash => "ASCII and UNICODE flags are incompatible"
  | textIndex => "string index out of range"

end Fault

end Utterance
