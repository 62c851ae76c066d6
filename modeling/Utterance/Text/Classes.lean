import Utterance.Text.Ranges

/-!
# Classes of characters

The classes of the Unicode character database, version 14, that programs can observe: letters, numerals, digits,
blanks and characters that have no printed form. Within ASCII they are the usual ones.
-/

namespace Utterance.Text

def alphabeticRanges : Ranges := .ofCodes
  [0x1093ae3a5f91a9c9d2f93f971ac1c1edf999209d9aac99e99b9992c912b921b1824e94ea9e5910f3bcc5d5b4ba914b991fafa1aba928993e,
  0x3d1391b9384919ac9d2ec9199b92f39f1bd389e295a7a6eb92a9f1a1f28c18aaa2e9f99bcb92891da9b1ea1a918ecaa2e9f9a9a9a3fc992bb,
  0x28199b92e9f9a9db92a91fa2f91b18aaa2e9f9a9db93ea9b1f92999ebb9cba999ababbb1c2e96c189b92f928b93aba9aa3e9c189b92f91a9d,
  0xb93fa9a1fa29199b959a9289db18b38ed2ab3891999af7a689a1cf7aa999d9389991a9a199ad992dc4897f1894c3bd16b5b2c928eccb9bafb,
  0xc1d1c9294e99d9a5b951d9caf999ca599ca499caf999ca1f9799ca10b4d282812eaeb115ca2993ad11be18f2a1d2b1e2a1e1d9b1f6c4b9c9,
  0x10b139fda4a99d10e1a3f693ead1b5cc3a6e2f196d12a913d5f29186e3e1da1a5c3a4c59b1a4ca19f5bab59c9e9ab9d30810842eaea4eaea,
  0x1899999993fa6d9f99bb9fbcaec1ddb9f16c91d9281d14d9c9a1a99bde999999c91bacddc96ca517b34decba1c4e99d9a78f9282f19f9f9f9,
  0xf9f9f9f9f128972da5addac12eeb913a9cd5b913e294868281008147081085321d10b5ea41db281aa2c5f283fa10e6919a14fa108da999d38,
  0x289b9c92f3d6c1e6a7eeb99a1b3c1a2f393df5f3c928d91a1ad9592fb9182c2fb9b6a99baada99938ba1bfb1ceaeae19f9f95b91ee16b3d,
  0x2564c1c2fc692040c55ea15a4ef1cdd991a91d9d999a9a915c4955b2a108a6e581c16cd920f4c3ae3a1b139beaeaeab4b1c93a92b9a91fa1e,
  0x4a17b60d3db695f481d2c918e4e1a3ea4cc186823e2a4cc4cc58186c1c1b91f9f9a91b91f9f9a10b46f192e1a1838e95a91910dea995c9ab9,
  0xa2f1a2f193f1092b9a1a2e1a3a10e78ea10891fc9b93d5a3db3d4b1893c3b6e1a2e1a2b1d2a15e1196f6b1d6b1d4c53c5aea11e3d1a9182e,
  0x5a2a5e2d3b2f1c6d79aa91d5d48393a4c3d9a9184bb91c681ec2d9994b2a93912cf999c91f91af5f4e18aaa2e9f9a9db92a91cd23e6d2ac2c,
  0xb3e682ca992785f59c4c682c97b5b1d910f3b4df2795c16c1083f18a9a189a9381f99913e18a4f289993c91a58f92d91b5e2b92a11940f199,
  0x4d299693e168f9a94e2d939e9a9481e950f2b27d911f163a34e30c511c1491f205f7729110f206791079f3f2911f293e2a6828c3f2dd2b,
  0x126810820811bd910a1d108a993c1377818232e5a192134fc9f9a944b5db29c1861c440c15bd1db19f1a1354e12d910f9aa9aaac91c999f9,
  0x1099ca189f93c9c9d99bf952ca3993993f93993f93993f93993f939918346c3f7495d1af2895093e2a5c236cf9c9a91f930d7b10cf9226cc9,
  0x3b9a99a991a9c9999e9c999999b9a99a9999999999a99ac9f9c9c9991a929db9d9291050c1233484810079f33ea1320a1e16469603f103e,
  0x274a1151b]

/-- Decimal digits; every range is a whole number of runs from zero to nine. -/
def decimalRanges : Ranges := .ofCodes
  [0x681a304e1a20e1a30e1a63c1a16e1a16e1a16e1a16e1a16e1a16e1a16e1a16e1a16e1a1481a16e1a10e1a42e1a10e1a350e1a4e1a45c1a208,
  0x1a24e1ae1a26e1a12e1a20e1ae1a10470e1a124e1a4e1a30e1a2e1a12e1a62e1a5142e1a260e1a420e1a145c1a2081a7c1a2281a42e1a52e,
  0x1a16e1a56e1a14e1a14e1a64e1a14e1a136e1a36e1a10e1a4626e1a12e1a20e1a6616c6a45081a64e1a312e1a1122e1a]

/-- Digits that are no decimal ones. -/
def otherDigitRanges : Ranges := .ofCodes
  [0x26aad91125f1931589322d9bee1a172e191b191b1913991a1999116e1991991916125dc203c197591916024d1b]

/-- Characters that stand for numbers and are neither digits nor letters. -/
def otherNumeralRanges : Ranges := .ofCodes
  [0x27cb446de578e178b20df339f29196691a207e1b1569b37f1a452e6bad133f1b191b191b11f1a19912089199199255991419939191eb52fc,
  0x21a1a3e1891f481a4f1f7204e1a508e543295d1c7929a52d3b4cc3d918920ed220a1839f4f1911bd2ee248aa28a5e10cd6ca3eb11bd15818,
  0x381859f51ae5592e23e1a5ac168f21f1b57b2c250da65e19154f2b152b2d205b15f4335cf143e2f621192c15c391251e1916497b9b9c11c5d,
  0x91f171da]

/-- Marks that take no room of their own. -/
def markRanges : Ranges := .ofCodes
  [0x26f911181682f937bd4195d999a9a991181b682d28914dfaeaa9c4b93e3b13b1b7a1919938c9199b9d5bb7c185a389486f999c18c9bf1aa3d,
  0x97a9cc1892ca3a9aa799cacaabb93eab91ba799cd9ac92ca2ee997a9a99c189fa1ba3e97d91c96a9b96f99bdb9cfa1ba3d97a9a9e9da2ca3c,
  0xa79acc1892ca3d91189fb9913a9af1c1814a9a191be11aa3b999996f1e9d9ad1b94c19914ec9e9aaa39acb28c1d9aae91f9127fb166ab3da,
  0x3ea3ea108a9f189a1b1995db99239916ebca199eb33baa97a99f9999a18e1aa9681e92869c6899d99d958191ca48caa9b7899ab99b7a18aa,
  0x238b91d9fc9e9ba30e10813281dc9b1c577eb21d914848105ac15ba7272c9c1a48a128a4289b9c939ad922fa3a2a1d94e18391b5eb689acaa,
  0x4f910beaaaa1c91895f96b99baada995aa18935e9a9c9474689134928282855ea113d934a922dd320eb9adc58bc924da107dc60ba2391b69c,
  0x17b96e1f599aa1ab69caaf97db4cd9187e91ca6c191aca913fba99ae92489b182da79ab94dfbd30b18ab992f912ce99ca9a35ecea9a3ba12d,
  0x18a99a15a999ae9914dbac9d40b199a408a99c9228caac9481a58eac18919eab5e1d9a62ef9e9912a2eaf9a9a17aeb99a9f99118ab99953ba,
  0x4577bd7bf203897fc129946278a111495ea2f1048b2918af3ec22cb367b6fc6a1891e92ed91f2528f929af9a9d40df56f97dc2748f15df,
  0x301366d368]

def blankRanges : Ranges :=
  #[(9,13),(28,32),(133,133),(160,160),(5760,5760),(8192,8202),(8232,8233),
  (8239, 8239), (8287, 8287), (12288, 12288)]

/-- Characters without a printed form, apart from the space. -/
def unprintableRanges : Ranges := .ofCodes
  [0x84813f4a1c9131aaecf9992c961d94ea6aab96f183bce292e9308968a7ba14d1e7ba69a1f93ca991bd3f1911a9249918aaa2e9f99bca19aaa,
  0xc189ca9da39ab9ecaa2e9f9a9a9aa99dcaabb9fc99f291ab9199b92e9f9a9da1a9b9ba91fca1cff9b918aaa2e9f9a9da19aaabfbca9da2a1a,
  0xa9ebb9cba999ababbb1ccdbb9ca9e91e2dd1d9b92f928a199b9cfa9ba9aca1af2e9b92f91a9da199b9cfaea9ca1a9a1d1d9b96b9b9ec28a3a,
  0x9b92ab3891999afb9ce99918e1aab1c7ac3d4da999d9389992fad999ea1aac4811894cc4f94c91f91d4d30e99d9a5799caf999ca599ca499c,
  0xaf999ca1f9799ca10ba48b3ae12eaea120893cb139f2e1938192c1c1d9b9a1c13ea1ae1ae1e91be139f5bd10e1a3f91cc1cc9b5aad1b5cc3a,
  0xe1bb7ea10993da1be1ae1ea3f6911db5f916c187cb1fb7cf5ba1b185bd102eaea4eaea1899999993fa6d91f91eae92bab9192938185f29aa,
  0x3b91db491f491f21cc122f391b2d342ca48953dd5d99d9a78fa1e3819f9f9f9f9f9f9f9f917e4a3a91391c32e3a1cd7f912ea14fd5b913e9,
  0x12c1c5f97115db6f1953c2c2781831bda999d387bb1ae781810e181ce16c1b3eb11e91bc4996f191ea1aa14f383c1aeaeae19f9f97cc17ea,
  0x1ae2564c1c2fc69c40081440855ea15a4ef1cdd3a9d999a9a917d2867da6ef9485ae6b92b9ccd920fc27ebeaeaeabbf9f1daa1c93a92b9a9,
  0x1fa1e4a17bdbc5db13891db95f5e20a3db691f3cc4c193ed5bd3e94dc1e5a23ea1ae4cc4cc58186c1b1c91f9f9a91b91f9f9a10b46f192e1a,
  0x1838e95a91910dea995c9ab9a2f91181819682b9ad49b3bd910878c2ca6a9ad189b93dabc1af19f108484fc1c196eb3da3bd3afc1cf128119,
  0x6f6b1d6bf5e181a44e3f95a9baa11e58185a2e3a4e3c2c2f1911ec4c197e9d1d39f1ae6d92a184f1914892c1b2a95c109f999c91f91be7bd,
  0x1aec918aaa2e9f9a9d91aaaaba9e9dfafbd21b13c9d3e118181a24e6ea4e4a10d1b1ae1d2b7ae1a6e3ba1fc2f2797c14c12b1c18a9a189a9,
  0x3e9aa1c191a10e18a5ea1b3b1181812b1d11940f1995d91e1a3db48a2e91e119f9a95cb99a919181aee9a94d9a9ef1a46e3926f91f6a1d,
  0x163b14e15f9d1b30c511c14b1d205f7729110f206791079f3f91ac12991ae3eae1a10e1a1a9f92dd2b126813b14d11bc79f29108d1ba1e,
  0x1377818232e5a192134fc9f9a944b5db29c1861c440c15bd1db19f1aac111485ea2f1916c7c36e1a4fa11a181682d10e23a2c1c12f193920f,
  0x12d910f9aa9aaac91c999f91099ca189f93c9c9d99bf952ca44ca127e1fd91f21283f349f929af9a9d32d5db1ea1aca5083f297ad92348f9c,
  0x9a91f930da285911cc1aca142910c11c7d30ac93b9a99a991a9c9999e9c999999b9a99a9999999999a99ac9f9c9c9991a929db9d9296ca41e,
  0x5cc14c1c1fa1f91f94d1a25e783d1d5cc19fa1ee23a1738d28b1db16c1c139f1cc91f1cc78181ae58183eaa11e52c1c1eadbdbf193db1bde,
  0x1a1ae1818f1922b96f4d1a200e1233484810079f33ea1320a1e16469603f103e274a1151b256666d368577028]

def isAlphabetic (c : Char) : Bool := alphabeticRanges.contains c

def isDecimal (c : Char) : Bool := decimalRanges.contains c

def isDigit (c : Char) : Bool := isDecimal c || otherDigitRanges.contains c

def isBlank (c : Char) : Bool := blankRanges.contains c

def isPrintable (c : Char) : Bool := !unprintableRanges.contains c

def isAlphanumeric (c : Char) : Bool := isAlphabetic c || isDigit c || otherNumeralRanges.contains c

def decimalValue? (c : Char) : Option Nat :=
  (decimalRanges.find? c).map fun (first, _) => (c.toNat - first) % 10

end Utterance.Text
