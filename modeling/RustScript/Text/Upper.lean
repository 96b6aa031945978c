/-
  Capital letters, and the upper-case spelling of a text.

  `isUpper` is the Uppercase property, so title-case digraphs are not capitals. `toUpper` is the
  full mapping: a letter without a single capital becomes several (`ß` gives `SS`).
-/
import RustScript.Text.CodePoints

namespace RustScript.Text

/-- A run of small letters: every `step`-th code point from `first` to `last` is one, and their
    capitals stand in the same steps from `capital` on. -/
structure CaseRun where
  first : Nat
  last : Nat
  step : Nat
  capital : Nat

/-- The small letters with a single capital that stand in runs. -/
def caseRuns : List CaseRun :=
  [⟨97,122,1,65⟩, ⟨224,246,1,192⟩, ⟨248,254,1,216⟩, ⟨257,303,2,256⟩, ⟨307,311,2,306⟩,
   ⟨314,328,2,313⟩, ⟨331,375,2,330⟩, ⟨378,382,2,377⟩, ⟨387,389,2,386⟩, ⟨417,421,2,416⟩,
   ⟨436,438,2,435⟩, ⟨462,476,2,461⟩, ⟨479,495,2,478⟩, ⟨505,543,2,504⟩, ⟨547,563,2,546⟩,
   ⟨575,576,1,11390⟩, ⟨583,591,2,582⟩, ⟨598,599,1,393⟩, ⟨650,651,1,433⟩, ⟨881,883,2,880⟩,
   ⟨891,893,1,1021⟩, ⟨941,943,1,904⟩, ⟨945,961,1,913⟩, ⟨963,971,1,931⟩, ⟨973,974,1,910⟩,
   ⟨985,1007,2,984⟩, ⟨1072,1103,1,1040⟩, ⟨1104,1119,1,1024⟩, ⟨1121,1153,2,1120⟩, ⟨1163,1215,2,1162⟩,
   ⟨1218,1230,2,1217⟩, ⟨1233,1327,2,1232⟩, ⟨1377,1414,1,1329⟩, ⟨4304,4346,1,7312⟩,
   ⟨4349,4351,1,7357⟩, ⟨5112,5117,1,5104⟩, ⟨7299,7300,1,1057⟩, ⟨7681,7829,2,7680⟩,
   ⟨7841,7935,2,7840⟩, ⟨7936,7943,1,7944⟩, ⟨7952,7957,1,7960⟩, ⟨7968,7975,1,7976⟩,
   ⟨7984,7991,1,7992⟩, ⟨8000,8005,1,8008⟩, ⟨8017,8023,2,8025⟩, ⟨8032,8039,1,8040⟩,
   ⟨8048,8049,1,8122⟩, ⟨8050,8053,1,8136⟩, ⟨8054,8055,1,8154⟩, ⟨8056,8057,1,8184⟩,
   ⟨8058,8059,1,8170⟩, ⟨8060,8061,1,8186⟩, ⟨8112,8113,1,8120⟩, ⟨8144,8145,1,8152⟩,
   ⟨8160,8161,1,8168⟩, ⟨8560,8575,1,8544⟩, ⟨9424,9449,1,9398⟩, ⟨11312,11359,1,11264⟩,
   ⟨11368,11372,2,11367⟩, ⟨11393,11491,2,11392⟩, ⟨11500,11502,2,11499⟩, ⟨11520,11557,1,4256⟩,
   ⟨42561,42605,2,42560⟩, ⟨42625,42651,2,42624⟩, ⟨42787,42799,2,42786⟩, ⟨42803,42863,2,42802⟩,
   ⟨42874,42876,2,42873⟩, ⟨42879,42887,2,42878⟩, ⟨42897,42899,2,42896⟩, ⟨42903,42921,2,42902⟩,
   ⟨42933,42947,2,42932⟩, ⟨42952,42954,2,42951⟩, ⟨42967,42969,2,42966⟩, ⟨43888,43967,1,5024⟩,
   ⟨65345,65370,1,65313⟩, ⟨66600,66639,1,66560⟩, ⟨66776,66811,1,66736⟩, ⟨66967,67003,2,66928⟩,
   ⟨66968,66976,2,66929⟩, ⟨66980,66992,2,66941⟩, ⟨66996,67000,2,66957⟩, ⟨68800,68850,1,68736⟩,
   ⟨71872,71903,1,71840⟩, ⟨93792,93823,1,93760⟩, ⟨125218,125251,1,125184⟩]

/-- The other small letters with a single capital, and the capitals. -/
def casePairs : List (Nat × Nat) :=
  [(181,924), (255,376), (305,73), (383,83), (384,579), (392,391), (396,395), (402,401), (405,502),
   (409,408), (410,573), (414,544), (424,423), (429,428), (432,431), (441,440), (445,444),
   (447,503), (453,452), (454,452), (456,455), (457,455), (459,458), (460,458), (477,398),
   (498,497), (499,497), (501,500), (572,571), (578,577), (592,11375), (593,11373), (594,11376),
   (595,385), (596,390), (601,399), (603,400), (604,42923), (608,403), (609,42924), (611,404),
   (613,42893), (614,42922), (616,407), (617,406), (618,42926), (619,11362), (620,42925), (623,412),
   (625,11374), (626,413), (629,415), (637,11364), (640,422), (642,42949), (643,425), (647,42929),
   (648,430), (649,580), (652,581), (658,439), (669,42930), (670,42928), (837,921), (887,886),
   (940,902), (962,931), (972,908), (976,914), (977,920), (981,934), (982,928), (983,975),
   (1008,922), (1009,929), (1010,1017), (1011,895), (1013,917), (1016,1015), (1019,1018),
   (1231,1216), (7296,1042), (7297,1044), (7298,1054), (7301,1058), (7302,1066), (7303,1122),
   (7304,42570), (7545,42877), (7549,11363), (7566,42950), (7835,7776), (8126,921), (8165,8172),
   (8526,8498), (8580,8579), (11361,11360), (11365,570), (11366,574), (11379,11378), (11382,11381),
   (11507,11506), (11559,4295), (11565,4301), (42892,42891), (42900,42948), (42961,42960),
   (42998,42997), (43859,42931), (67004,66965)]

/-- The capitals that are not the single capital of a small letter. -/
def otherCapitals : List Nat :=
  boundsOf 0 [304,1,673,3,31,1,6825,1,611,1,4,1,3,3,2,3,2,1,3,5,6,1,1,1,1,1,1,4,2,2,1,1,10,2,5,1,
    111290,26,26,26,26,26,26,1,1,2,2,1,2,2,2,4,1,8,26,26,26,2,1,4,2,8,1,7,27,2,1,4,1,5,1,1,3,7,27,
    26,26,26,26,26,26,26,26,26,26,26,30,25,33,25,33,25,33,25,33,25,33,1,6501,26,6,26,6,26]

def isUpper (c : Char) : Bool :=
  let n := c.toNat
  (caseRuns.any fun r =>
      r.capital ≤ n && n ≤ r.capital + (r.last - r.first) && (n - r.capital) % r.step == 0) ||
    casePairs.any (·.2 == n) || inBounds otherCapitals c

/-- The letters whose capital spelling takes several letters, but for those with an iota below. -/
def caseExpansions : List (Nat × List Nat) :=
  [(223, [83, 83]), (329, [700, 78]), (496, [74, 780]), (912, [921, 776, 769]),
   (944, [933, 776, 769]), (1415, [1333, 1362]), (7830, [72, 817]), (7831, [84, 776]),
   (7832, [87, 778]), (7833, [89, 778]), (7834, [65, 702]), (8016, [933, 787]),
   (8018, [933, 787, 768]), (8020, [933, 787, 769]), (8022, [933, 787, 834]), (8114, [8122, 921]),
   (8115, [913, 921]), (8116, [902, 921]), (8118, [913, 834]), (8119, [913, 834, 921]),
   (8124, [913, 921]), (8130, [8138, 921]), (8131, [919, 921]), (8132, [905, 921]),
   (8134, [919, 834]), (8135, [919, 834, 921]), (8140, [919, 921]), (8146, [921, 776, 768]),
   (8147, [921, 776, 769]), (8150, [921, 834]), (8151, [921, 776, 834]), (8162, [933, 776, 768]),
   (8163, [933, 776, 769]), (8164, [929, 787]), (8166, [933, 834]), (8167, [933, 776, 834]),
   (8178, [8186, 921]), (8179, [937, 921]), (8180, [911, 921]), (8182, [937, 834]),
   (8183, [937, 834, 921]), (8188, [937, 921]), (64256, [70, 70]), (64257, [70, 73]),
   (64258, [70, 76]), (64259, [70, 70, 73]), (64260, [70, 70, 76]), (64261, [83, 84]),
   (64262, [83, 84]), (64275, [1348, 1350]), (64276, [1348, 1333]), (64277, [1348, 1339]),
   (64278, [1358, 1350]), (64279, [1348, 1341])]

/-- The sixteen letters with an iota below from `first` on: eight small ones and their title cases,
    which share the capitals from `capital` on, each followed by a capital iota. -/
def iotaExpansions (first capital : Nat) : List (Nat × List Nat) :=
  (List.range 16).map fun i => (first + i, [capital + i % 8, 921])

def upperChar (c : Char) : List Char :=
  let n := c.toNat
  let iotas := iotaExpansions 8064 7944 ++ iotaExpansions 8080 7976 ++ iotaExpansions 8096 8040
  match (caseExpansions ++ iotas).lookup n with
  | some ns => ns.map Char.ofNat
  | none =>
    match caseRuns.find? fun r => r.first ≤ n && n ≤ r.last && (n - r.first) % r.step == 0 with
    | some r => [Char.ofNat (r.capital + (n - r.first))]
    | none => [((casePairs.lookup n).map Char.ofNat).getD c]

def toUpper (s : String) : String := String.ofList (s.toList.flatMap upperChar)

end RustScript.Text
