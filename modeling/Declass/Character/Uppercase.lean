/-!
# Upper-case mapping

**Input.** A character.

**Algorithm.** Characters whose upper case is one character are stored as runs: from a first to a
last code point with a fixed step, all moved by one signed distance.  Characters whose upper case
is several characters are listed one by one.  A character in neither table is its own upper case.
Both tables start behind ASCII, where the mapping is that of the letters.

**Results.** `upper c` is the full, context-free upper case of `c`, of one to three characters.
-/

namespace Declass
namespace Character

/-- Code points from `first` to `last` in steps of `step` that all move by `shift`. -/
structure CaseRun where
  first : Nat
  last : Nat
  step : Nat
  shift : Int

/-- The runs that a table describes: how far behind the last code point of the run before a run
starts, how many code points it has, their step, and how far they move. -/
def runsFrom : Nat → List (Nat × Nat × Nat × Int) → List CaseRun
  | _, [] => []
  | n, (skip, count, step, shift) :: table =>
    let last := n + skip + (count - 1) * step
    ⟨n + skip, last, step, shift⟩ :: runsFrom last table

/-- Runs of characters beyond ASCII whose upper case is one other character. -/
def upperRuns : List CaseRun :=
  runsFrom 0 [(181,1,1,743), (43,23,1,-32), (2,7,1,-32), (1,1,1,121), (2,24,2,-1), (2,1,1,-232),
    (2,3,2,-1), (3,8,2,-1), (3,23,2,-1), (3,3,2,-1), (1,1,1,-300), (1,1,1,195), (3,2,2,-1),
    (3,1,1,-1), (4,1,1,-1), (6,1,1,-1), (3,1,1,97), (4,1,1,-1), (1,1,1,163), (1,1,1,42561),
    (3,1,1,130), (3,3,2,-1), (3,1,1,-1), (5,1,1,-1), (3,1,1,-1), (4,2,2,-1), (3,1,1,-1), (4,1,1,-1),
    (2,1,1,56), (6,1,1,-1), (1,1,1,-2), (2,1,1,-1), (1,1,1,-2), (2,1,1,-1), (1,1,1,-2), (2,8,2,-1),
    (1,1,1,-79), (2,9,2,-1), (3,1,1,-1), (1,1,1,-2), (2,1,1,-1), (4,20,2,-1), (4,9,2,-1),
    (9,1,1,-1), (3,2,1,10815), (2,1,1,-1), (5,5,2,-1), (1,1,1,10783), (1,1,1,10780), (1,1,1,10782),
    (1,1,1,-210), (1,1,1,-206), (2,2,1,-205), (2,1,1,-202), (2,1,1,-203), (1,1,1,42319),
    (4,1,1,-205), (1,1,1,42315), (2,1,1,-207), (1,1,1,42343), (1,1,1,42280), (1,1,1,42308),
    (2,1,1,-209), (1,1,1,-211), (1,1,1,42308), (1,1,1,10743), (1,1,1,42305), (3,1,1,-211),
    (2,1,1,10749), (1,1,1,-213), (3,1,1,-214), (8,1,1,10727), (3,1,1,-218), (2,1,1,42307),
    (1,1,1,-218), (4,1,1,42282), (1,1,1,-218), (1,1,1,-69), (1,2,1,-217), (1,1,1,-71), (6,1,1,-219),
    (11,1,1,42261), (1,1,1,42258), (167,1,1,84), (44,2,2,-1), (4,1,1,-1), (4,3,1,130), (47,1,1,-38),
    (1,3,1,-37), (2,17,1,-32), (1,1,1,-31), (1,9,1,-32), (1,1,1,-64), (1,2,1,-63), (2,1,1,-62),
    (1,1,1,-57), (4,1,1,-47), (1,1,1,-54), (1,1,1,-8), (2,12,2,-1), (1,1,1,-86), (1,1,1,-80),
    (1,1,1,7), (1,1,1,-116), (2,1,1,-96), (3,1,1,-1), (3,1,1,-1), (53,32,1,-32), (1,16,1,-80),
    (2,17,2,-1), (10,27,2,-1), (3,7,2,-1), (1,1,1,-15), (2,48,2,-1), (50,38,1,-48),
    (2890,43,1,3008), (3,3,1,3008), (761,6,1,-8), (2179,1,1,-6254), (1,1,1,-6253), (1,1,1,-6244),
    (1,2,1,-6242), (1,1,1,-6243), (1,1,1,-6236), (1,1,1,-6181), (1,1,1,35266), (2,1,1,-1),
    (239,1,1,35332), (4,1,1,3814), (17,1,1,35384), (115,75,2,-1), (6,1,1,-59), (6,48,2,-1),
    (1,8,1,8), (9,6,1,8), (11,8,1,8), (9,8,1,8), (9,6,1,8), (12,4,2,8), (9,8,1,8), (9,2,1,74),
    (1,4,1,86), (1,2,1,100), (1,2,1,128), (1,2,1,112), (1,2,1,126), (51,2,1,8), (13,1,1,-7205),
    (18,2,1,8), (15,2,1,8), (4,1,1,7), (361,1,1,-28), (34,16,1,-16), (5,1,1,-1), (844,26,1,-26),
    (1863,48,1,-48), (2,1,1,-1), (4,1,1,-10795), (1,1,1,-10792), (2,3,2,-1), (7,1,1,-1), (3,1,1,-1),
    (11,50,2,-1), (9,2,2,-1), (5,1,1,-1), (13,38,1,-7264), (2,1,1,-7264), (6,1,1,-7264),
    (30996,23,2,-1), (20,14,2,-1), (136,7,2,-1), (4,31,2,-1), (11,2,2,-1), (3,5,2,-1), (5,1,1,-1),
    (5,2,2,-1), (1,1,1,48), (3,10,2,-1), (12,8,2,-1), (5,2,2,-1), (3,8,2,-1), (27,1,1,-1),
    (861,1,1,-928), (29,80,1,-38864), (21378,26,1,-32), (1230,40,1,-40), (137,36,1,-40),
    (156,11,1,-39), (2,15,1,-39), (2,7,1,-39), (2,2,1,-39), (1796,51,1,-64), (126,22,1,-32),
    (2875,32,1,-32), (21889,32,1,-32), (60,25,1,-27), (31311,34,1,-34)]

/-- Characters whose upper case is more than one character. -/
def upperExpansions : List (Nat × List Nat) :=
  [(223,[83,83]), (329,[700,78]), (496,[74,780]), (912,[921,776,769]), (944,[933,776,769]),
   (1415,[1333,1362]), (7830,[72,817]), (7831,[84,776]), (7832,[87,778]), (7833,[89,778]),
   (7834,[65,702]), (8016,[933,787]), (8018,[933,787,768]), (8020,[933,787,769]),
   (8022,[933,787,834]), (8064,[7944,921]), (8065,[7945,921]), (8066,[7946,921]), (8067,[7947,921]),
   (8068,[7948,921]), (8069,[7949,921]), (8070,[7950,921]), (8071,[7951,921]), (8072,[7944,921]),
   (8073,[7945,921]), (8074,[7946,921]), (8075,[7947,921]), (8076,[7948,921]), (8077,[7949,921]),
   (8078,[7950,921]), (8079,[7951,921]), (8080,[7976,921]), (8081,[7977,921]), (8082,[7978,921]),
   (8083,[7979,921]), (8084,[7980,921]), (8085,[7981,921]), (8086,[7982,921]), (8087,[7983,921]),
   (8088,[7976,921]), (8089,[7977,921]), (8090,[7978,921]), (8091,[7979,921]), (8092,[7980,921]),
   (8093,[7981,921]), (8094,[7982,921]), (8095,[7983,921]), (8096,[8040,921]), (8097,[8041,921]),
   (8098,[8042,921]), (8099,[8043,921]), (8100,[8044,921]), (8101,[8045,921]), (8102,[8046,921]),
   (8103,[8047,921]), (8104,[8040,921]), (8105,[8041,921]), (8106,[8042,921]), (8107,[8043,921]),
   (8108,[8044,921]), (8109,[8045,921]), (8110,[8046,921]), (8111,[8047,921]), (8114,[8122,921]),
   (8115,[913,921]), (8116,[902,921]), (8118,[913,834]), (8119,[913,834,921]), (8124,[913,921]),
   (8130,[8138,921]), (8131,[919,921]), (8132,[905,921]), (8134,[919,834]), (8135,[919,834,921]),
   (8140,[919,921]), (8146,[921,776,768]), (8147,[921,776,769]), (8150,[921,834]),
   (8151,[921,776,834]), (8162,[933,776,768]), (8163,[933,776,769]), (8164,[929,787]),
   (8166,[933,834]), (8167,[933,776,834]), (8178,[8186,921]), (8179,[937,921]), (8180,[911,921]),
   (8182,[937,834]), (8183,[937,834,921]), (8188,[937,921]), (64256,[70,70]), (64257,[70,73]),
   (64258,[70,76]), (64259,[70,70,73]), (64260,[70,70,76]), (64261,[83,84]), (64262,[83,84]),
   (64275,[1348,1350]), (64276,[1348,1333]), (64277,[1348,1339]), (64278,[1358,1350]),
   (64279,[1348,1341])]

/-- Whether the code point `n` lies on the run. -/
def CaseRun.holds (r : CaseRun) (n : Nat) : Bool :=
  r.first ≤ n && n ≤ r.last && (n - r.first) % r.step == 0

def upper (c : Char) : List Char :=
  if c.toNat < 0x80 then [c.toUpper] else
  match upperExpansions.lookup c.toNat with
  | some cs => cs.map Char.ofNat
  | none =>
    match upperRuns.find? (·.holds c.toNat) with
    | some r => [Char.ofNat (c.toNat + r.shift).toNat]
    | none => [c]

end Character
end Declass
