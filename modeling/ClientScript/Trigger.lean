import ClientScript.Prototype

/-!
Triggers: the ways one script makes another run. Triggers that a script container can hold
have a number; the shift-click ones have none.
-/
namespace ClientScript

inductive Trigger where
  | opWorldMapElement1 | opWorldMapElement2 | opWorldMapElement3 | opWorldMapElement4
  | opWorldMapElement5 | worldMapElementMouseOver | worldMapElementMouseLeave
  | worldMapElementMouseRepeat | loadNpc | loadLoc | updateObjStack | trigger47 | trigger48
  | trigger49 | proc | clientScript | onClickLoc | onClickObj | onClickNpc | onClickPlayer
  | trigger82 | shiftOpNpc | shiftOpLoc | shiftOpObj | shiftOpPlayer | shiftOpTile
  deriving DecidableEq, Repr

namespace Trigger

def all : List Trigger :=
  [.opWorldMapElement1, .opWorldMapElement2, .opWorldMapElement3, .opWorldMapElement4,
   .opWorldMapElement5, .worldMapElementMouseOver, .worldMapElementMouseLeave,
   .worldMapElementMouseRepeat, .loadNpc, .loadLoc, .updateObjStack, .trigger47, .trigger48,
   .trigger49, .proc, .clientScript, .onClickLoc, .onClickObj, .onClickNpc, .onClickPlayer,
   .trigger82, .shiftOpNpc, .shiftOpLoc, .shiftOpObj, .shiftOpPlayer, .shiftOpTile]

theorem mem_all (t : Trigger) : t ∈ all := by
  cases t <;> decide

def name : Trigger → String
  | .opWorldMapElement1 => "opworldmapelement1"
  | .opWorldMapElement2 => "opworldmapelement2"
  | .opWorldMapElement3 => "opworldmapelement3"
  | .opWorldMapElement4 => "opworldmapelement4"
  | .opWorldMapElement5 => "opworldmapelement5"
  | .worldMapElementMouseOver => "worldmapelementmouseover"
  | .worldMapElementMouseLeave => "worldmapelementmouseleave"
  | .worldMapElementMouseRepeat => "worldmapelementmouserepeat"
  | .loadNpc => "loadnpc"
  | .loadLoc => "loadloc"
  | .updateObjStack => "updateobjstack"
  | .trigger47 => "trigger_47"
  | .trigger48 => "trigger_48"
  | .trigger49 => "trigger_49"
  | .proc => "proc"
  | .clientScript => "clientscript"
  | .onClickLoc => "onclickloc"
  | .onClickObj => "onclickobj"
  | .onClickNpc => "onclicknpc"
  | .onClickPlayer => "onclickplayer"
  | .trigger82 => "trigger_82"
  | .shiftOpNpc => "shiftopnpc"
  | .shiftOpLoc => "shiftoploc"
  | .shiftOpObj => "shiftopobj"
  | .shiftOpPlayer => "shiftopplayer"
  | .shiftOpTile => "shiftoptile"

def number? : Trigger → Option Int32
  | .opWorldMapElement1 => some 10
  | .opWorldMapElement2 => some 11
  | .opWorldMapElement3 => some 12
  | .opWorldMapElement4 => some 13
  | .opWorldMapElement5 => some 14
  | .worldMapElementMouseOver => some 15
  | .worldMapElementMouseLeave => some 16
  | .worldMapElementMouseRepeat => some 17
  | .loadNpc => some 35
  | .loadLoc => some 37
  | .updateObjStack => some 45
  | .trigger47 => some 47
  | .trigger48 => some 48
  | .trigger49 => some 49
  | .proc => some 73
  | .clientScript => some 76
  | .onClickLoc => some 78
  | .onClickObj => some 79
  | .onClickNpc => some 80
  | .onClickPlayer => some 81
  | .trigger82 => some 82
  | .shiftOpNpc | .shiftOpLoc | .shiftOpObj | .shiftOpPlayer | .shiftOpTile => none

def ofNumber? (n : Int32) : Option Trigger := all.find? fun t => t.number? == some n

def subject? : Trigger → Option Prototype
  | .opWorldMapElement1 | .opWorldMapElement2 | .opWorldMapElement3 | .opWorldMapElement4
  | .opWorldMapElement5 | .worldMapElementMouseOver | .worldMapElementMouseLeave
  | .worldMapElementMouseRepeat => some .mapelement
  | .loadNpc => some .npc
  | .loadLoc => some .loc
  | _ => none

end Trigger

end ClientScript
