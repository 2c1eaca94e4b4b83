/-!
Opcode numbers. The interface-level variant of a component command is the component-relative
opcode plus 1000; it takes the component as an extra last argument.
-/
namespace ClientScript

abbrev Opcode := UInt16

namespace Opcode

def pushConstantInt : Opcode := 0
def getVar : Opcode := 1
def setVar : Opcode := 2
def pushConstantString : Opcode := 3
def branch : Opcode := 6
def branchNot : Opcode := 7
def branchEquals : Opcode := 8
def branchLessThan : Opcode := 9
def branchGreaterThan : Opcode := 10
def ret : Opcode := 21
def getVarbit : Opcode := 25
def setVarbit : Opcode := 27
def branchLessThanOrEquals : Opcode := 31
def branchGreaterThanOrEquals : Opcode := 32
def pushIntLocal : Opcode := 33
def popIntLocal : Opcode := 34
def pushStringLocal : Opcode := 35
def popStringLocal : Opcode := 36
def joinString : Opcode := 37
def popIntDiscard : Opcode := 38
def popStringDiscard : Opcode := 39
/-- A procedure call in the current revision, an invocation in the legacy one. -/
def gosubWithParams : Opcode := 40
def getVarcInt : Opcode := 42
def setVarcInt : Opcode := 43
def defineArray : Opcode := 44
def pushArrayInt : Opcode := 45
def popArrayInt : Opcode := 46
def getVarcString : Opcode := 49
def setVarcString : Opcode := 50
def switch : Opcode := 60

def ccCreate : Opcode := 100
def ccDelete : Opcode := 101
def ccDeleteAll : Opcode := 102
def ccFind : Opcode := 200
def ifFind : Opcode := 201

def ccSetPosition : Opcode := 1000
def ccSetSize : Opcode := 1001
def ccSetHide : Opcode := 1003
def ccSetScrollPos : Opcode := 1100
def ccSetColour : Opcode := 1101
def ccSetFill : Opcode := 1102
def ccSetTrans : Opcode := 1103
def ccSetGraphic : Opcode := 1105
def ccSet2dAngle : Opcode := 1106
def ccSetModel : Opcode := 1108
def ccSetModelAnim : Opcode := 1110
def ccSetText : Opcode := 1112
def ccSetTextFont : Opcode := 1113
def ccSetTextAlign : Opcode := 1114
def ccSetTextShadow : Opcode := 1115
def ccSetObject : Opcode := 1200
def ccSetNpcHead : Opcode := 1201
def ccSetOp : Opcode := 1300
def ccSetDraggable : Opcode := 1301
def ccSetOpBase : Opcode := 1305
def ccClearOps : Opcode := 1307

def ccSetOnClick : Opcode := 1400
def ccSetOnVarTransmit : Opcode := 1407
def ccSetOnInvTransmit : Opcode := 1414
def ccSetOnStatTransmit : Opcode := 1415
def ccSetOnResize : Opcode := 1427
def ccSetOnVarcTransmit : Opcode := 1428
def ccSetOnVarcStrTransmit : Opcode := 1429

def ccGetX : Opcode := 1500
def ccGetY : Opcode := 1501
def ccGetWidth : Opcode := 1502
def ccGetHeight : Opcode := 1503
def ccGetHide : Opcode := 1504
def ccGetText : Opcode := 1602
def ccGetTrans : Opcode := 1609
def ccGetInvObject : Opcode := 1700
def ccGetInvCount : Opcode := 1701
def ccGetId : Opcode := 1702
def ccGetOp : Opcode := 1801

/-- Distance from a component-relative opcode to its interface-level variant. -/
def interfaceOffset : Opcode := 1000

def ifSetPosition : Opcode := ccSetPosition + interfaceOffset
def ifSetSize : Opcode := ccSetSize + interfaceOffset
def ifSetHide : Opcode := ccSetHide + interfaceOffset
def ifSetColour : Opcode := ccSetColour + interfaceOffset
def ifSetGraphic : Opcode := ccSetGraphic + interfaceOffset
def ifSetText : Opcode := ccSetText + interfaceOffset
def ifSetObject : Opcode := ccSetObject + interfaceOffset
def ifSetOp : Opcode := ccSetOp + interfaceOffset
def ifSetOnClick : Opcode := ccSetOnClick + interfaceOffset
def ifGetX : Opcode := ccGetX + interfaceOffset
def ifGetY : Opcode := ccGetY + interfaceOffset
def ifGetWidth : Opcode := ccGetWidth + interfaceOffset
def ifGetHeight : Opcode := ccGetHeight + interfaceOffset
def ifGetHide : Opcode := ccGetHide + interfaceOffset
def ifGetText : Opcode := ccGetText + interfaceOffset
def ifHasSub : Opcode := 2702
def ifGetTop : Opcode := 2706

def mes : Opcode := 3100
def anim : Opcode := 3101
def ifClose : Opcode := 3103
def openUrl : Opcode := 3113
def soundSynth : Opcode := 3200
def clientClock : Opcode := 3300
def invGetObj : Opcode := 3301
def invGetNum : Opcode := 3302
def invTotal : Opcode := 3303
def invSize : Opcode := 3304
def stat : Opcode := 3305
def statBase : Opcode := 3306
def statXp : Opcode := 3307
def coord : Opcode := 3308
def coordX : Opcode := 3309
def coordY : Opcode := 3310
def coordZ : Opcode := 3311
def mapMembers : Opcode := 3312
def moveCoord : Opcode := 3325
def enumString : Opcode := 3400
def enum : Opcode := 3408
def enumHasOutput : Opcode := 3409
def enumGetOutputCount : Opcode := 3411
def friendCount : Opcode := 3600
def friendGetName : Opcode := 3601

def add : Opcode := 4000
def sub : Opcode := 4001
def multiply : Opcode := 4002
def div : Opcode := 4003
def random : Opcode := 4004
def randomInc : Opcode := 4005
def interpolate : Opcode := 4006
def addPercent : Opcode := 4007
def setBit : Opcode := 4008
def clearBit : Opcode := 4009
def testBit : Opcode := 4010
def mod : Opcode := 4011
def pow : Opcode := 4012
def and : Opcode := 4014
def or : Opcode := 4015
def min : Opcode := 4016
def max : Opcode := 4017

def appendNum : Opcode := 4100
def append : Opcode := 4101
def appendSignNum : Opcode := 4102
def lowercase : Opcode := 4103
def toString : Opcode := 4106
def compare : Opcode := 4107
def paraHeight : Opcode := 4108
def paraWidth : Opcode := 4109
def textSwitch : Opcode := 4110
def appendChar : Opcode := 4112
def stringLength : Opcode := 4117
def substring : Opcode := 4118
def stringIndexOfString : Opcode := 4122

def ocName : Opcode := 4200
def ocOp : Opcode := 4201
def ocIop : Opcode := 4202
def ocCost : Opcode := 4203
def ocStackable : Opcode := 4204

def ncParam : Opcode := 6513
def lcParam : Opcode := 6514
def ocParam : Opcode := 6515
def structParam : Opcode := 6516
def mecText : Opcode := 6693
def mecParam : Opcode := 6698

def dbGetField : Opcode := 7502

/-- Short-circuit conjunction of two branch conditions; no bytecode holds it. -/
def shortAnd : Opcode := 65534
def shortOr : Opcode := 65535

def text (op : Opcode) : String := ToString.toString op.toNat

end Opcode

end ClientScript
