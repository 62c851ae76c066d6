import Utterance.Files.Directory
import Utterance.Library.Lists
import Utterance.Library.Math
import Utterance.Library.Strings

/-!
# The library

The modules that come with the language, as files of its directory.
-/

namespace Utterance.Library

def home : Directory :=
  [("math", mathText), ("lists", listsText), ("strings", stringsText)].map fun (name, text) =>
    (["stdlib", name ++ ".uttr"], text.toUTF8.toList)

def filesFor (workPath : String) (work : Directory) (homePath : String) : Files := ⟨workPath, work, homePath, home⟩

end Utterance.Library
