import ClientScript.Command

/-!
The declarative commands. `rule` lists the arguments taken from the stack and the results put on
it; `relative` does the same for a command whose operand selects component-relative addressing.
-/
namespace ClientScript.Signature

open Opcode Prototype

def rule (opcode : Opcode) (args defs : List Prototype) : Signature :=
  ⟨opcode, args.map (·, .stack), defs.map (·, .stack), false⟩

def relative (opcode : Opcode) (args defs : List Prototype) : Signature :=
  { rule opcode args defs with dot := true }

def componentSetters : List Signature :=
  [relative ccCreate [component, iftype, comsubid] [],
   relative ccDelete [] [],
   rule ccDeleteAll [component] [],
   relative ccFind [component, comsubid] [boolean],
   relative ifFind [component] [boolean],
   relative ccSetPosition [x, y, setposh, setposv] [],
   relative ccSetSize [width, height, setsize, setsize] [],
   relative ccSetHide [boolean] [],
   relative ccSetScrollPos [x, y] [],
   relative ccSetColour [colour] [],
   relative ccSetFill [boolean] [],
   relative ccSetTrans [trans] [],
   relative ccSetGraphic [graphic] [],
   relative ccSet2dAngle [angle] [],
   relative ccSetModel [model] [],
   relative ccSetModelAnim [seq] [],
   relative ccSetText [caption] [],
   relative ccSetTextFont [fontmetrics] [],
   relative ccSetTextAlign [settextalignh, settextalignv, int] [],
   relative ccSetTextShadow [boolean] [],
   relative ccSetObject [obj, num] [],
   relative ccSetNpcHead [npc] [],
   relative ccSetOp [opindex, op] [],
   relative ccSetDraggable [component, comsubid] [],
   relative ccSetOpBase [opbase] [],
   relative ccClearOps [] [],
   rule ifSetPosition [x, y, setposh, setposv, component] [],
   rule ifSetSize [width, height, setsize, setsize, component] [],
   rule ifSetHide [boolean, component] [],
   rule ifSetColour [colour, component] [],
   rule ifSetGraphic [graphic, component] [],
   rule ifSetText [caption, component] [],
   rule ifSetObject [obj, num, component] [],
   rule ifSetOp [opindex, op, component] []]

def componentGetters : List Signature :=
  [relative ccGetX [] [x],
   relative ccGetY [] [y],
   relative ccGetWidth [] [width],
   relative ccGetHeight [] [height],
   relative ccGetHide [] [boolean],
   relative ccGetText [] [caption],
   relative ccGetTrans [] [trans],
   relative ccGetInvObject [] [obj],
   relative ccGetInvCount [] [num],
   relative ccGetId [] [comsubid],
   relative ccGetOp [opindex] [op],
   rule ifGetX [component] [x],
   rule ifGetY [component] [y],
   rule ifGetWidth [component] [width],
   rule ifGetHeight [component] [height],
   rule ifGetHide [component] [boolean],
   rule ifGetText [component] [caption],
   rule ifHasSub [component] [boolean],
   rule ifGetTop [] [interface]]

def client : List Signature :=
  [rule mes [caption] [],
   rule anim [seq, int] [],
   rule ifClose [] [],
   rule openUrl [string, boolean] [],
   rule soundSynth [synth, count, int] [],
   rule clientClock [] [clock],
   rule invGetObj [inv, index] [obj],
   rule invGetNum [inv, index] [num],
   rule invTotal [inv, obj] [num],
   rule invSize [inv] [length],
   rule Opcode.stat [Prototype.stat] [level],
   rule statBase [Prototype.stat] [level],
   rule statXp [Prototype.stat] [xp],
   rule Opcode.coord [] [Prototype.coord],
   rule coordX [Prototype.coord] [x],
   rule coordY [Prototype.coord] [y],
   rule coordZ [Prototype.coord] [level],
   rule mapMembers [] [boolean],
   rule moveCoord [Prototype.coord, x, level, y] [Prototype.coord],
   rule enumString [Prototype.enum, int] [string],
   rule enumGetOutputCount [Prototype.enum] [count],
   rule friendCount [] [count],
   rule friendGetName [index] [username, username]]

def arithmetic : List Signature :=
  [rule add [int, int] [int],
   rule sub [int, int] [int],
   rule multiply [int, int] [int],
   rule div [int, int] [int],
   rule random [int] [int],
   rule randomInc [int] [int],
   rule interpolate [int, int, int, int, int] [int],
   rule addPercent [int, int] [int],
   rule setBit [flags, index] [flags],
   rule clearBit [flags, index] [flags],
   rule testBit [flags, index] [boolean],
   rule mod [int, int] [int],
   rule pow [int, int] [int],
   rule Opcode.and [int, int] [int],
   rule Opcode.or [int, int] [int],
   rule Opcode.min [int, int] [int],
   rule Opcode.max [int, int] [int]]

def strings : List Signature :=
  [rule appendNum [string, int] [string],
   rule append [string, string] [string],
   rule appendSignNum [string, int] [string],
   rule lowercase [string] [string],
   rule Opcode.toString [int] [string],
   rule Opcode.compare [string, string] [int],
   rule paraHeight [string, width, fontmetrics] [height],
   rule paraWidth [string, width, fontmetrics] [width],
   rule textSwitch [boolean, string, string] [string],
   rule appendChar [string, char] [string],
   rule stringLength [string] [length],
   rule substring [string, index, index] [string],
   rule stringIndexOfString [string, string, index] [index]]

def objects : List Signature :=
  [rule ocName [obj] [string],
   rule ocOp [obj, opindex] [op],
   rule ocIop [obj, opindex] [op],
   rule ocCost [obj] [int],
   rule ocStackable [obj] [boolean]]

def shared : List Signature :=
  componentSetters ++ componentGetters ++ client ++ arithmetic ++ strings ++ objects

def currentOnly : List Signature := [rule mecText [mapelement] [caption]]

/-- Variables, locals, arrays and discards of the legacy revision, written on the operand. -/
def legacyOnly : List Signature :=
  [⟨getVar, [(int, .operand)], [(int, .stack)], false⟩,
   ⟨setVar, [(int, .operand), (int, .stack)], [], false⟩,
   ⟨getVarbit, [(int, .operand)], [(int, .stack)], false⟩,
   ⟨setVarbit, [(int, .operand), (int, .stack)], [], false⟩,
   ⟨pushIntLocal, [(int, .localVar)], [(int, .stack)], false⟩,
   ⟨popIntLocal, [(int, .stack)], [(int, .localVar)], false⟩,
   ⟨pushStringLocal, [(string, .localVar)], [(string, .stack)], false⟩,
   ⟨popStringLocal, [(string, .stack)], [(string, .localVar)], false⟩,
   ⟨getVarcInt, [(int, .operand)], [(int, .stack)], false⟩,
   ⟨setVarcInt, [(int, .operand), (int, .stack)], [], false⟩,
   ⟨getVarcString, [(int, .operand)], [(string, .stack)], false⟩,
   ⟨setVarcString, [(int, .operand), (string, .stack)], [], false⟩,
   ⟨defineArray, [(length, .stack), (int, .operand)], [], false⟩,
   ⟨pushArrayInt, [(index, .stack), (int, .operand)], [(int, .stack)], false⟩,
   ⟨popArrayInt, [(index, .stack), (int, .stack), (int, .operand)], [], false⟩,
   rule popIntDiscard [int] [],
   rule popStringDiscard [string] []]

end ClientScript.Signature
