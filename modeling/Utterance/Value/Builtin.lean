/-!
# Built-in functions

The functions that every program starts with: their names and parameters.
-/

namespace Utterance

inductive Builtin where
  | display | input | inputInt | len | append | pop | extend | keys | values | hasKey | remove | run | help | exit
  | clear | errorMessage | errorType | split | join | upper | lower | replace | substring | tuple | list | regexMatch
  | regexSearch | regexReplace | regexFindAll | regexSplit | union | intersection | difference | symmetricDifference
  | add | contains | isSubset | isSuperset | setFromList
deriving DecidableEq, Repr, Inhabited

namespace Builtin

def name : Builtin → String
  | display => "show"
  | input => "input"
  | inputInt => "input_int"
  | len => "len"
  | append => "append"
  | pop => "pop"
  | extend => "extend"
  | keys => "keys"
  | values => "values"
  | hasKey => "has_key"
  | remove => "remove"
  | run => "run"
  | help => "help"
  | exit => "exit"
  | clear => "clear"
  | errorMessage => "error_message"
  | errorType => "error_type"
  | split => "split"
  | join => "join"
  | upper => "upper"
  | lower => "lower"
  | replace => "replace"
  | substring => "substring"
  | tuple => "tuple"
  | list => "list"
  | regexMatch => "regex_match"
  | regexSearch => "regex_search"
  | regexReplace => "regex_replace"
  | regexFindAll => "regex_findall"
  | regexSplit => "regex_split"
  | union => "union"
  | intersection => "intersection"
  | difference => "difference"
  | symmetricDifference => "symmetric_difference"
  | add => "add"
  | contains => "contains"
  | isSubset => "is_subset"
  | isSuperset => "is_superset"
  | setFromList => "set_from_list"

def params : Builtin → List String
  | input | inputInt | help | exit | clear => []
  | display | tuple | list => ["value"]
  | len | setFromList => ["list"]
  | append => ["list", "value"]
  | pop => ["list", "index"]
  | extend => ["listA", "listB"]
  | run => ["fn"]
  | keys | values => ["dict"]
  | hasKey | remove => ["dict", "key"]
  | errorMessage | errorType => ["error"]
  | split => ["string", "delimiter"]
  | join => ["list", "separator"]
  | upper | lower => ["string"]
  | replace => ["string", "old", "new"]
  | substring => ["string", "start", "end"]
  | regexMatch | regexSearch | regexFindAll | regexSplit => ["pattern", "text"]
  | regexReplace => ["pattern", "replacement", "text"]
  | union | intersection | difference | symmetricDifference | isSubset | isSuperset => ["set1", "set2"]
  | add => ["set", "element"]
  | contains => ["collection", "element"]

def all : List Builtin :=
  [display, input, inputInt, len, append, pop, extend, keys, values, hasKey, remove, run, help, exit, clear,
    errorMessage, errorType, split, join, upper, lower, replace, substring, tuple, list, regexMatch, regexSearch,
    regexReplace, regexFindAll, regexSplit, union, intersection, difference, symmetricDifference, add, contains,
    isSubset, isSuperset, setFromList]

end Builtin

end Utterance
