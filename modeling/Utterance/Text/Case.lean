import Utterance.Text.Classes

/-!
# Letter case

Upper and lower case by the Unicode character database, version 14, with the characters that become several and
with the Greek sigma, whose small form depends on whether a word ends there.
-/

namespace Utterance.Text

/-- Runs of letters, as first, last, step and shift. -/
abbrev Runs := Array (Nat × Nat × Nat × Int)

/-- Runs that are given by how many code points are left out before each of them, how many letters it has, its step,
and its shift, doubled and odd if it goes down. -/
def runsOf (codes : List Nat) : Runs := (go 0 (codes.flatMap decode)).toArray
where
  go : Nat → List Nat → List (Nat × Nat × Nat × Int)
    | n, left :: count :: step :: shift :: rest =>
      let first := n + left
      let last := first + (count - 1) * step
      (first, last, step, if shift % 2 = 0 then (shift / 2 : Nat) else .negSucc (shift / 2)) :: go (last + 1) rest
    | _, _ => []

/-- Small letters and the way to their capitals, where the capital goes back to the same letter. -/
def pairedRuns : Runs := runsOf
  [0x1493a97f14d2f97f9f97f89936a938a9bba9a18a9a2fa9aba999960eaaa9a999b999d999a9930ab99989950eb9940caba9a999c999a999baa,
  0x9a999b999999168e99ba99ba99b918a989923d919a9b99b9999b2ca9b19a918999aa95217e9999cda98995207e899520788995207c89964b8,
  0x9963b9a963999962b99962d89924523eb9963989924522e99963d99924512889924521899964989964d8992452188995175e89924520aa99,
  0x64d9995177a899659a9965bf995171ea9966b99924520e89966bb9924512c89966b8992198a966989921dd9966d1a9924505a89924504c32a,
  0xaa9b999bb940c5e9911b8b911992997f91997f89917f8a917d18991f91ca9a991e89934fc999a9996c4897f828923f929a9193ba9afa9899,
  0x3d968a9694e913f55195b913608ab9136081378e91f457b99212018b991671c289921216816a11ba91b68a981892818e9281a189281818928,
  0x18e9281bca28181892818a922c8c925c8a93188a94088a93488a937c6aa9283ea9281ea928b991e558996f492893fc999151b3a96b350e689,
  0x13f9999b995212d8995211f9ba9e999a9991a6aa918aa9c9991c4e93427f9993427fd993427f7442b2fa92b1ea920ffa9b3fa91aaa9ada9c9,
  0x99caa9899148a1aa91b18a9caa9e999daa93c999153c99347f3c128922763f516093a97f231d58911f2184c911f23b1b911d91f911d9f911d,
  0x9a911d340b6b917f571d4897f526084897f7524a4a910b]

def upperRuns : Runs := pairedRuns ++ runsOf
  [0x26d99271e17b9971f11d99112f10d999a999a9994e99952a9925817c997d1d9917b899169b9913d89915b399925b89923fb9927f1421a99,
  0x3033b899303398993030f8a93030b8993030d8993026f8993011989921160c102a9916d44a9934119]

/-- Greek letters with a subscript iota, in three groups of twice eight. -/
def iotaExpansions : List (Nat × List Nat) :=
  (List.range 48).map fun i => (8064 + i, [[7944, 7976, 8040].getD (i / 16) 0 + i % 8, 921])

def upperExpansions : List (Nat × List Nat) := iotaExpansions ++
  [(223,[83,83]),(329,[700,78]),(496,[74,780]),(912,[921,776,769]),(944,[933,776,769]),(1415,[1333,1362]),
  (7830,[72,817]),(7831,[84,776]),(7832,[87,778]),(7833,[89,778]),(7834,[65,702]),(8016,[933,787]),
  (8018,[933,787,768]),(8020,[933,787,769]),(8022,[933,787,834]),(8114,[8122,921]),(8115,[913,921]),(8116,[902,921]),
  (8118,[913,834]),(8119,[913,834,921]),(8124,[913,921]),(8130,[8138,921]),(8131,[919,921]),(8132,[905,921]),
  (8134,[919,834]),(8135,[919,834,921]),(8140,[919,921]),(8146,[921,776,768]),(8147,[921,776,769]),(8150,[921,834]),
  (8151,[921,776,834]),(8162,[933,776,768]),(8163,[933,776,769]),(8164,[929,787]),(8166,[933,834]),
  (8167,[933,776,834]),(8178,[8186,921]),(8179,[937,921]),(8180,[911,921]),(8182,[937,834]),(8183,[937,834,921]),
  (8188,[937,921]),(64256,[70,70]),(64257,[70,73]),(64258,[70,76]),(64259,[70,70,73]),(64260,[70,70,76]),
  (64261,[83,84]),(64262,[83,84]),(64275,[1348,1350]),(64276,[1348,1333]),(64277,[1348,1339]),(64278,[1358,1350]),
  (64279,[1348,1341])]

def lowerRuns : Runs :=
  pairedRuns.map (fun (first, last, step, shift) => ((first + shift).toNat, (last + shift).toNat, step, -shift)) ++
  runsOf
    [0x70d99aa99aa99a4e99a10099916f15259993557d3591891f181891f181891f1c99291f99295f99294599935279b994057d8994021b]

/-- Characters that have a case and that the search for a word end does not skip. -/
def casedRanges : Ranges := .ofCodes
  [0x1093ae3a5f91a9c9d2f93f930b9cc32893b308caabb99e99b9992c912b921b1824e94e1959542f4e99d9a5bab124812eae420a19f5bab108,
  0x5c7f1d94a14d42eaea4eaea1899999993fa6d9f99bb9fbcaec1ddb9f40d9c9a1a99bde999999c9ec9acddc92948ba14696c342e17ca14fecb,
  0xa1c4e99d97442a5e2a3c20e11e92fbc97bda999d3bab9146d5bd19f12847508f1cd20193ae3a224d1281484cc4c16c1b91f9f9a91b91f9f9a,
  0x330b6b1d6b565d108525481086260812d910f9aa9aaac91c999f91099ca189f93c9c9d99bf952ca3993993f93993f93993f93993f939918,
  0x346c1a92c474910c375c3ae3ae3a]

/-- Characters other than marks that the search for a word end skips. -/
def ignorableRanges : Ranges := .ofCodes
  [0x4f9e91b94b99910f9c999c9b976f12816cac919a40aa31f9d922c91be2e94b923c9fa58934cac93f9199b913f9fa6f938921e9232c917f9,
  0x106d9333a96e96c9109a104892e9679e25e7f1d94a4d77d99b1bb1db1db1da1cd18a1a9a9ad69d91a991d9281d108c9b562fa369927f972d9,
  0x5bdd913fc13db6742e9234ae41e914bb1c93ca14a4a11e92fb14fbba72d92e9219915c92da14ed19b5010e29112897e9a92599f9e91b94b99,
  0x95f916a92db360ce95a919440a91f92154a193340fc211f1d108a994001cc9f9a6249c1231f18767cf401d9525fd300600993e148]

/-- Applies the runs of a case table to a code point. -/
def shiftCode (runs : Runs) (code : Nat) : Nat :=
  match runs.find? fun (first, last, step, _) => first ≤ code && code ≤ last && (code - first) % step == 0 with
  | some (_, _, _, shift) => ((code : Int) + shift).toNat
  | none => code

def upperChar (c : Char) : List Char :=
  match upperExpansions.find? (·.1 == c.toNat) with
  | some (_, expansion) => expansion.map Char.ofNat
  | none => [Char.ofNat (shiftCode upperRuns c.toNat)]

/-- The small form of a single character; the capital I with a dot keeps its dot as a character of its own. -/
def lowerChar (c : Char) : List Char :=
  if c.toNat = 304 then ['i', Char.ofNat 775] else [Char.ofNat (shiftCode lowerRuns c.toNat)]

/-- Whether the first character that the search for a word end does not skip has a case. -/
def startsCased (cs : List Char) : Bool :=
  match cs.dropWhile fun c => markRanges.contains c || ignorableRanges.contains c with
  | c :: _ => casedRanges.contains c
  | [] => false

/-- Lower case of `rest`, which stands after the reversed text `before`. -/
def lowerFrom : List Char → List Char → List Char
  | _, [] => []
  | before, c :: rest =>
    let small :=
      if c = 'Σ' then [if startsCased before && !startsCased rest then 'ς' else 'σ'] else lowerChar c
    small ++ lowerFrom (c :: before) rest

def upper (s : String) : String := String.ofList (s.toList.flatMap upperChar)

def lower (s : String) : String := String.ofList (lowerFrom [] s.toList)

end Utterance.Text
