import ExactInference.Random.Stream
import ExactInference.Weight.Binary64

/-!
# Random distributions

The area under the exponential density is cut into 256 layers of equal size, so that a layer can be
chosen by eight bits and a place across it by the other 53. A place that lies under the next layer
as well is under the density; any other place is checked against the density at a random height, and
beyond the last edge the bottom layer goes on with the tail. Several such numbers, divided by their
sum, are a distribution that favours no state.
-/

namespace ExactInference.Random

/-- Where the layers end, in units of `2 ^ -57`: the first number is the width of the bottom layer
with its tail, and the others grow up to the edge of that tail. -/
def layerEdges : Array Nat :=
  #[1253386719925747968, 9202066597249586, 15108821235440214, 19787733151921896, 23797398382356940,
    27375932281580032, 30649194752958256, 33692759436490336, 36556022746374624, 39273288978379648,
    41869490946912664, 44363404158924368, 46769574734983432, 49099537445443096, 51362618479828456,
    53566483430539464, 55717522604491640, 57821128907931280, 59881902700138520, 61903805732429344,
    63890278798457928, 65844333010215344, 67768621569120976, 69665496885787984, 71537056538529864,
    73385180620346752, 75211562364178368, 77017733465594608, 78805085181573632, 80574886034316912,
    82328296763683552, 84066383032647856, 85790126284580016, 87500433070235680, 89198143099775488,
    90884036226348160, 92558838529421600, 94223227635677488, 95877837391066320, 97523261978177488,
    99160059557375216, 100788755497389568, 102409845250626624, 104023796919897008,
    105631053556193072, 107232035221280544, 108827140843985296, 110416749894966976,
    112001223901336224, 113580907819574336, 115156131282760576, 116727209736027120,
    118294445472384160, 119858128579536400, 121418537807006864, 122975941361760688,
    124530597639551120, 126082755898370448, 127632656879659504, 129180533382294960,
    130726610793820080, 132271107582900432, 133814235756561776, 135356201285394400,
    136897204499579968, 138437440458307104, 139977099294886384, 141516366539647824,
    143055423422503440, 144594447156878112, 146133611206552640, 147673085536820992,
    149213036851236416, 150753628815107808, 152295022266805440, 153837375417844384,
    155380844042631104, 156925581658685280, 158471739698082496, 160019467670802528,
    161568913320614976, 163120222774083744, 164673540683228448, 166229010362340320,
    167786773919413568, 169346972382620576, 170909745822229536, 172475233468334624,
    174043573824746528, 175614904779365888, 177189363711344512, 178767087595318688,
    180348213102983296, 181932876702259712, 183521214754297056, 185113363608533120,
    186709459696030848, 188309639621295424, 189914040252768096, 191522798812184320,
    193136052962976992, 194753940897898272, 196376601426028192, 198004174059332800,
    199636799098930624, 201274617721221504, 202917772064030144, 204566405312912352,
    206220661787771136, 207880687029927776, 209546627889791872, 211218632615273984,
    212896850941083968, 214581434179059424, 216272535309668064, 217970309074830656,
    219674912072211680, 221386502851127936, 223105242010227328, 224831292297093728,
    226564818709937184, 228305988601532736, 230054971785576064, 231811940645628832,
    233577070246832672, 235350538450576800, 237132526032310784, 238923216802701792,
    240722797732343616, 242531459080232928, 244349394526238368, 246176801307797568,
    248013880361088704, 249860836466934272, 251717878401708192, 253585219093530016,
    255463075784045696, 257351670196109152, 259251228707696000, 261161982532399104,
    263084167906874784, 265018026285629376, 266963804543557952, 268921755186671584,
    270892136571474784, 272875213133482560, 274871255625396192, 276880541365489408,
    278903354496789760, 280939986257678304, 282990735264569856, 285055907807378592,
    287135818158521088, 289230788896257280, 291341151243224768, 293467245421078720,
    295609421022213824, 297768037399610304, 299943464075920960, 302136081172995008,
    304346279863119296, 306574462843351936, 308821044834423424, 311086453105789632,
    313371128028540992, 315675523658000256, 318000108347983872, 320345365398853248,
    322711793741650944, 325099908660799616, 327510242558039040, 329943345760497280,
    332399787376028032, 334880156199209664, 337385061671687232, 339915134900853760,
    342471029741214016, 345053423943152640, 347663020374251840, 350300548318762368,
    352966764861345984, 355662456361771200, 358388440027870208, 361145565594757952,
    363934717119086080, 366756814897957632, 369612817523084416, 372503724081828608,
    375430576517958080, 378394462166270464, 381396516476726400, 384437925945398912,
    387519931271419968, 390643830761210304, 393810984003659648, 397022815842606656,
    400280820676011264, 403586567114656896, 406941703037139840, 410347961082365824,
    413807164625863104, 417321234292049408, 420892195061264576, 424522184038055488,
    428213458956039360, 431968407504880768, 435789557576741056, 439679588543287424,
    443641343690336960, 447677843955885376, 451792303139148032, 455988144773956480,
    460269020890183168, 464638832922753664, 469101755070438912, 473662260457443008,
    478325150511643264, 483095588046467328, 487979134621680256, 492981792865420224,
    498110054570301312, 503370955536195008, 508772138329057728, 514321924368776448,
    520029397062410176, 525904498079445312, 531958139345369856, 538202333939263424,
    544650349861033984, 551316891640066112, 558218316065968768, 565372890040363456,
    572801100826130752, 580526032020707072, 588573822710937472, 596974232929478400,
    605761346396770304, 614974452610454272, 624659166193128704, 634868864473197312,
    645666558470602240, 657127364224405376, 669341821584102016, 682420435040139264,
    696500019737112320, 711752788599386240, 728399736323289344, 746731014057420928,
    767138189381597952, 790167813985265920, 816615766997580032, 847706334360180608,
    885467446376828032, 933632735065260672, 1000308366938537472, 1109271531849892224]

/-- Where a layer ends. -/
def edge (layer : Nat) : Float := (layerEdges.getD layer 0).toFloat.scaleB (-57)

/-- Up to where a layer lies under the density as a whole: the end of the next one, which for the
bottom layer is where the tail starts and for the topmost layer is nothing. -/
def innerEdge (layer : Nat) : Float :=
  if layer = 0 then edge 255 else if layer = 1 then 0.0 else edge (layer - 1)

/-- The density at the end of a layer; the topmost layer is cut off at one. -/
def heightAt (layer : Nat) : Float := if layer = 0 then 1.0 else (-edge layer).exp

/-- One try: a number, or nothing if the place that was drawn is above the density. -/
def tryExponential : Draw (Option Float) := do
  let word := (← Draw.long) >>> 3
  let layer := (word &&& 0xFF).toNat
  let x := (word >>> 8).toFloat.scaleB (-53) * edge layer
  if x < innerEdge layer then pure (some x)
  else
    let u ← Draw.unit
    if layer = 0 then pure (some (edge 255 - Binary64.logOnePlus (-u)))
    else
      let below := heightAt layer
      pure (if (heightAt (layer - 1) - below) * u + below < (-x).exp then some x else none)

/-- The first try of at most `n` that succeeds. A try fails about once in a hundred times. -/
def exponentialWithin : Nat → Draw Float
  | 0 => pure 1.0
  | n + 1 => do
    match ← tryExponential with
    | some x => pure x
    | none => exponentialWithin n

/-- A number with the exponential density. -/
def exponential : Draw Float := exponentialWithin 1000

/-- A distribution over `n` states. -/
def distribution (n : Nat) : Draw (List Weight) := do
  let xs ← (List.range n).mapM fun _ => exponential
  let inverse := 1.0 / Binary64.sum xs
  pure (xs.map fun x => ⟨x * inverse⟩)

/-- Several distributions over `n` states. -/
def distributions (count n : Nat) : Draw (List (List Weight)) :=
  (List.range count).mapM fun _ => distribution n

end ExactInference.Random
