/-!
Value types. A value lives on one of two stacks and has a finer type on top of that.
Only two pairs of distinct types are compatible: an object with a named object, and
font metrics with a graphic.
-/
namespace ClientScript

inductive StackType where
  | int
  | string
  deriving DecidableEq, Repr, Inhabited

inductive ValueType where
  | area | boolean | category | char | chatcat | chatphrase | component | cursor | coord
  | dbrow | enum | fontmetrics | graphic | idkit | int | interface | inv | stringvector
  | loc | locshape | maparea | mapelement | midi | model | namedobj | entityoverlay | npc
  | npcUid | obj | overlayinterface | param | playerUid | seq | spotanim | stat | string
  | struct | synth | toplevelinterface | type | dbtable | dbcolumn
  deriving DecidableEq, Repr, Inhabited

namespace StackType

def name : StackType → String
  | .int => "int"
  | .string => "string"

def title : StackType → String
  | .int => "Int"
  | .string => "String"

def defaultType : StackType → ValueType
  | .int => .int
  | .string => .string

def listText (types : List StackType) : String :=
  "[" ++ ", ".intercalate (types.map title) ++ "]"

end StackType

namespace ValueType

def all : List ValueType :=
  [.area, .boolean, .category, .char, .chatcat, .chatphrase, .component, .cursor, .coord,
   .dbrow, .enum, .fontmetrics, .graphic, .idkit, .int, .interface, .inv, .stringvector,
   .loc, .locshape, .maparea, .mapelement, .midi, .model, .namedobj, .entityoverlay, .npc,
   .npcUid, .obj, .overlayinterface, .param, .playerUid, .seq, .spotanim, .stat, .string,
   .struct, .synth, .toplevelinterface, .type, .dbtable, .dbcolumn]

theorem mem_all (t : ValueType) : t ∈ all := by
  cases t <;> decide

def rank (t : ValueType) : Nat := all.idxOf t

def literal : ValueType → String
  | .area => "area"
  | .boolean => "boolean"
  | .category => "category"
  | .char => "char"
  | .chatcat => "chatcat"
  | .chatphrase => "chatphrase"
  | .component => "component"
  | .cursor => "cursor"
  | .coord => "coord"
  | .dbrow => "dbrow"
  | .enum => "enum"
  | .fontmetrics => "fontmetrics"
  | .graphic => "graphic"
  | .idkit => "idkit"
  | .int => "int"
  | .interface => "interface"
  | .inv => "inv"
  | .stringvector => "stringvector"
  | .loc => "loc"
  | .locshape => "locshape"
  | .maparea => "wma"
  | .mapelement => "mapelement"
  | .midi => "midi"
  | .model => "model"
  | .namedobj => "namedobj"
  | .entityoverlay => "entityoverlay"
  | .npc => "npc"
  | .npcUid => "npc_uid"
  | .obj => "obj"
  | .overlayinterface => "overlayinterface"
  | .param => "param"
  | .playerUid => "player_uid"
  | .seq => "seq"
  | .spotanim => "spotanim"
  | .stat => "stat"
  | .string => "string"
  | .struct => "struct"
  | .synth => "synth"
  | .toplevelinterface => "toplevelinterface"
  | .type => "type"
  | .dbtable => "dbtable"
  | .dbcolumn => "dbcolumn"

def ofLiteral? (s : String) : Option ValueType :=
  all.find? fun t => t.literal == s

/-- The one-character tag of a type in bytecode. Four types have none. -/
def descriptor? : ValueType → Option Char
  | .area => some 'R'
  | .boolean => some '1'
  | .category => some 'y'
  | .char => some 'z'
  | .chatcat => some 'k'
  | .chatphrase => some 'e'
  | .component => some 'I'
  | .cursor => some '@'
  | .coord => some 'c'
  | .dbrow => some '\xd0'
  | .enum => some 'g'
  | .fontmetrics => some 'f'
  | .graphic => some 'd'
  | .idkit => some 'K'
  | .int => some 'i'
  | .interface => some 'a'
  | .inv => some 'v'
  | .stringvector => some '\xb8'
  | .loc => some 'l'
  | .locshape => some 'H'
  | .maparea => some '\x60'
  | .mapelement => some '\xb5'
  | .midi => some 'M'
  | .model => some 'm'
  | .namedobj => some 'O'
  | .entityoverlay => some '-'
  | .npc => some 'n'
  | .npcUid => some 'u'
  | .obj => some 'o'
  | .overlayinterface => some 'L'
  | .param => none
  | .playerUid => some 'p'
  | .seq => some 'A'
  | .spotanim => some 't'
  | .stat => some 'S'
  | .string => some 's'
  | .struct => some 'J'
  | .synth => some 'P'
  | .toplevelinterface => some 'F'
  | .type => none
  | .dbtable => none
  | .dbcolumn => none

def ofDescriptor? (c : Char) : Option ValueType :=
  all.find? fun t => t.descriptor? == some c

/-- Descriptor bytes are Latin-1, which every descriptor in use fits. -/
def ofDescriptorByte? (n : Nat) : Option ValueType :=
  if n < 256 then ofDescriptor? (Char.ofNat n) else none

def stack : ValueType → StackType
  | .string => .string
  | _ => .int

/-- The loosest common supertype of two types, if they are compatible. -/
def union (a b : ValueType) : Option ValueType :=
  if a = b then some a else
    match a, b with
    | .namedobj, .obj | .obj, .namedobj => some .obj
    | .fontmetrics, .graphic | .graphic, .fontmetrics => some .fontmetrics
    | _, _ => none

/-- The tightest common subtype of two types, if they are compatible. -/
def intersection (a b : ValueType) : Option ValueType :=
  if a = b then some a else
    match a, b with
    | .namedobj, .obj | .obj, .namedobj => some .namedobj
    | .fontmetrics, .graphic | .graphic, .fontmetrics => some .graphic
    | _, _ => none

end ValueType

end ClientScript
