import Utterance.Text.Classes

/-!
# Names

A name is a text of letters, marks and digits that starts with a letter, by the identifier classes of the Unicode
character database, version 14, with the underscore as a letter. The classes stay as they are under compatibility
normalisation, so a few letters cannot start a name.
-/

namespace Utterance.Text

/-- Characters other than letters that can start a name: the underscore, numeral letters and a few symbols. -/
def nameSymbolRanges : Ranges :=
  #[(95, 95), (5870, 5872), (6277, 6278), (8472, 8472), (8494, 8494), (8544, 8578), (8581, 8584),
  (12295, 12295), (12321, 12329), (12344, 12346), (42726, 42735), (65856, 65908), (66369, 66369), (66378, 66378),
  (66513, 66517), (74752, 74862)]

def laterLetterRanges : Ranges :=
  #[(890, 890), (3635, 3635), (3763, 3763), (11823, 11823), (64606, 64611), (65018, 65019), (65136, 65136),
  (65138, 65138), (65140, 65140), (65142, 65142), (65144, 65144), (65146, 65146), (65148, 65148), (65150, 65150),
  (65438, 65439)]

/-- Characters other than decimal digits and marks that a name can have at every place but the first. -/
def nameInnerRanges : Ranges := .ofCodes
  [0x440b96f9ab18c9a6aa7abeaaa1a95b97ab10a97ab1899a6da7a999eaaa1a914ea9abb9b1a959b7dc7da7a99daa9a19a5ba7abdb9b1a95aa,
  0x11bbe182aa7f917f921aa7f925bac9e9aa39a1abaf2daaea91ab131c19164b93e92099f189a53acabca9e24997ea7a9991999a18e2299689d,
  0x99d9a7d93e9caa97c9ab99ba681818a25b92d9150fa2b97739a7376baa9138a6a2821ea5f968acaab15eaaa3895d99915d9aad935da9a9a99,
  0x5110ea38b35f91030899917f95dbca16b938a7b968b19a1d913dbba9925ab3fa7aa9caaab1991aa329b18ab915abe99ca935dbeca9169b18a,
  0x9915d99ae9159ac940db19936fe9ac9a99921eb18cc912c93da7e962f91e915a9f9a932ddca9953ea5013a6f158a6056baee]

def isNameStart (c : Char) : Bool :=
  (isAlphabetic c && !laterLetterRanges.contains c) || nameSymbolRanges.contains c

/-- Whether a character can stand in a name after its start. -/
def isNamePart (c : Char) : Bool :=
  isNameStart c || isDecimal c || markRanges.contains c || nameInnerRanges.contains c

def isName (s : String) : Bool :=
  match s.toList with
  | [] => false
  | c :: rest => isNameStart c && rest.all isNamePart

end Utterance.Text
