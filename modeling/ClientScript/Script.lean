import ClientScript.IntMap
import ClientScript.Opcode
import ClientScript.Value

/-!
Decoded scripts. Position `pc` holds an opcode and an operand. Jump offsets are relative to
the position after the jump.
-/
namespace ClientScript

inductive Format where
  | legacy
  | current
  deriving DecidableEq, Repr

def Format.name : Format → String
  | .legacy => "Legacy"
  | .current => "Current"

def Format.all : List Format := [.legacy, .current]

structure Script where
  opcodes : List Opcode
  operands : List Value
  /-- Jump tables: value to relative offset. -/
  switches : List (IntMap Int32)
  intArguments : Nat
  stringArguments : Nat
  returns : List StackType

namespace Script

def length (s : Script) : Nat := s.opcodes.length

def argumentCount (s : Script) : Nat := s.intArguments + s.stringArguments

/-- Integers first, then strings. -/
def arguments (s : Script) : List StackType :=
  List.replicate s.intArguments .int ++ List.replicate s.stringArguments .string

/-- The position a relative offset at `pc` leads to. It may lie outside every script. -/
def target (pc : Nat) (offset : Int32) : Int := pc + offset.toInt + 1

def offset (pc target : Nat) : Int32 := Int32.ofInt (target - pc - 1)

theorem target_offset (pc target : Nat)
    (low : -2147483648 ≤ (target : Int) - pc - 1) (high : (target : Int) - pc - 1 < 2147483648) :
    Script.target pc (offset pc target) = target := by
  have size : Int32.size = 4294967296 := rfl
  simp only [Script.target, offset, Int32.toInt_ofInt, size]
  rw [Int.bmod_eq_of_le] <;> omega

end Script

end ClientScript
