import ClientScript.ValueType

/-!
Prototypes: a type together with the role a value of it plays. Signatures of commands are
written in prototypes; only the type takes part in unification.
-/
namespace ClientScript

structure Prototype where
  type : ValueType
  role : Option String
  deriving DecidableEq

namespace Prototype

def of (t : ValueType) : Prototype := ⟨t, none⟩

def named (t : ValueType) (role : String) : Prototype := ⟨t, some role⟩

def identifier (p : Prototype) : String := p.role.getD p.type.literal

def stack (p : Prototype) : StackType := p.type.stack

def text (p : Prototype) : String :=
  match p.role with
  | some role => p.type.literal ++ "<" ++ role ++ ">"
  | none => p.type.literal

def int : Prototype := of .int
def boolean : Prototype := of .boolean
def string : Prototype := of .string
def char : Prototype := of .char
def component : Prototype := of .component
def coord : Prototype := of .coord
def category : Prototype := of .category
def cursor : Prototype := of .cursor
def dbrow : Prototype := of .dbrow
def dbcolumn : Prototype := of .dbcolumn
def enum : Prototype := of .enum
def fontmetrics : Prototype := of .fontmetrics
def graphic : Prototype := of .graphic
def idkit : Prototype := of .idkit
def interface : Prototype := of .interface
def inv : Prototype := of .inv
def loc : Prototype := of .loc
def maparea : Prototype := of .maparea
def mapelement : Prototype := of .mapelement
def model : Prototype := of .model
def namedobj : Prototype := of .namedobj
def npc : Prototype := of .npc
def obj : Prototype := of .obj
def param : Prototype := of .param
def seq : Prototype := of .seq
def stat : Prototype := of .stat
def struct : Prototype := of .struct
def synth : Prototype := of .synth
def typeTag : Prototype := of .type

def x : Prototype := named .int "x"
def y : Prototype := named .int "y"
def width : Prototype := named .int "width"
def height : Prototype := named .int "height"
def colour : Prototype := named .int "colour"
def trans : Prototype := named .int "trans"
def angle : Prototype := named .int "angle"
def index : Prototype := named .int "index"
def length : Prototype := named .int "length"
def count : Prototype := named .int "count"
def num : Prototype := named .int "num"
def flags : Prototype := named .int "flags"
def clock : Prototype := named .int "clock"
def level : Prototype := named .int "level"
def xp : Prototype := named .int "xp"
def opindex : Prototype := named .int "opindex"
def comsubid : Prototype := named .int "comsubid"
def iftype : Prototype := named .int "iftype"
def setposh : Prototype := named .int "setposh"
def setposv : Prototype := named .int "setposv"
def setsize : Prototype := named .int "setsize"
def settextalignh : Prototype := named .int "settextalignh"
def settextalignv : Prototype := named .int "settextalignv"
def key : Prototype := named .int "key"
def mouseX : Prototype := named .int "mousex"
def mouseY : Prototype := named .int "mousey"
def dropComponent : Prototype := named .component "drop"
def eventComponent : Prototype := named .component "event_com"
def caption : Prototype := named .string "text"
def op : Prototype := named .string "op"
def opbase : Prototype := named .string "opbase"
def username : Prototype := named .string "username"

def catalogue : List (String × Prototype) :=
  [("INT", int), ("BOOLEAN", boolean), ("STRING", string), ("CHAR", char),
   ("COMPONENT", component), ("COORD", coord), ("CATEGORY", category), ("CURSOR", cursor),
   ("DBROW", dbrow), ("DBCOLUMN", dbcolumn), ("ENUM", enum), ("FONTMETRICS", fontmetrics),
   ("GRAPHIC", graphic), ("IDKIT", idkit), ("INTERFACE", interface), ("INV", inv),
   ("LOC", loc), ("MAPAREA", maparea), ("MAPELEMENT", mapelement), ("MODEL", model),
   ("NAMEDOBJ", namedobj), ("NPC", npc), ("OBJ", obj), ("PARAM", param), ("SEQ", seq),
   ("STAT", stat), ("STRUCT", struct), ("SYNTH", synth), ("TYPE", typeTag),
   ("X", x), ("Y", y), ("WIDTH", width), ("HEIGHT", height), ("COLOUR", colour),
   ("TRANS", trans), ("ANGLE", angle), ("INDEX", index), ("LENGTH", length),
   ("COUNT", count), ("NUM", num), ("FLAGS", flags), ("CLOCK", clock), ("LEVEL", level),
   ("XP", xp), ("OPINDEX", opindex), ("COMSUBID", comsubid), ("IFTYPE", iftype),
   ("SETPOSH", setposh), ("SETPOSV", setposv), ("SETSIZE", setsize),
   ("SETTEXTALIGNH", settextalignh), ("SETTEXTALIGNV", settextalignv), ("KEY", key),
   ("MOUSE_X", mouseX), ("MOUSE_Y", mouseY), ("DROP_COMPONENT", dropComponent),
   ("EVENT_COMPONENT", eventComponent), ("TEXT", caption), ("OP", op), ("OPBASE", opbase),
   ("USERNAME", username)]

def named? (name : String) : Option Prototype := catalogue.lookup name

end Prototype

end ClientScript
