import ClientScript.Instruction

/-!
Instruction chains: a sequence kept as links in both directions, so that an instruction can be
put in front of another one and every instruction keeps its number. Numbers are never given out
twice; a removed instruction leaves its link behind, empty. `toList` is the sequence in order.
-/
namespace ClientScript

/-- A link is live while it holds an instruction. -/
structure Chain.Link where
  insn : Option Instruction
  prev : Option Nat
  next : Option Nat
  deriving DecidableEq

structure Chain where
  links : Array Chain.Link
  head : Option Nat
  tail : Option Nat
  length : Nat
  deriving DecidableEq

namespace Chain

def empty : Chain := ⟨#[], none, none, 0⟩

def live? (c : Chain) (id : Nat) : Option Link :=
  c.links[id]?.filter fun l => l.insn.isSome

def get? (c : Chain) (id : Nat) : Option Instruction := (c.live? id).bind Link.insn

def next? (c : Chain) (id : Nat) : Option Nat := (c.live? id).bind Link.next

def prev? (c : Chain) (id : Nat) : Option Nat := (c.live? id).bind Link.prev

def setNext (links : Array Link) (id : Nat) (next : Option Nat) : Array Link :=
  links.modify id fun l => { l with next := next }

def setPrev (links : Array Link) (id : Nat) (prev : Option Nat) : Array Link :=
  links.modify id fun l => { l with prev := prev }

/-- Append an instruction; its number is the number of links so far. -/
def push (c : Chain) (insn : Instruction) : Chain :=
  let id := c.links.size
  let links := c.links.push ⟨some insn, c.tail, none⟩
  { links := match c.tail with
      | some t => setNext links t (some id)
      | none => links
    head := match c.tail with
      | some _ => c.head
      | none => some id
    tail := some id
    length := c.length + 1 }

def insertBefore? (c : Chain) (anchor : Nat) (insn : Instruction) : Option Chain :=
  match c.live? anchor with
  | none => none
  | some l =>
    let id := c.links.size
    let links := setPrev (c.links.push ⟨some insn, l.prev, some anchor⟩) anchor (some id)
    some
      { links := match l.prev with
          | some p => setNext links p (some id)
          | none => links
        head := match l.prev with
          | some _ => c.head
          | none => some id
        tail := c.tail
        length := c.length + 1 }

def remove? (c : Chain) (id : Nat) : Option (Instruction × Chain) :=
  match c.live? id with
  | none => none
  | some l =>
    l.insn.map fun insn =>
      let links := c.links.modify id fun _ => ⟨none, none, none⟩
      let links := match l.prev with
        | some p => setNext links p l.next
        | none => links
      let links := match l.next with
        | some n => setPrev links n l.prev
        | none => links
      (insn,
        { links := links
          head := match l.prev with
            | some _ => c.head
            | none => l.next
          tail := match l.next with
            | some _ => c.tail
            | none => l.prev
          length := c.length - 1 })

def replace? (c : Chain) (id : Nat) (insn : Instruction) : Option Chain :=
  (c.live? id).map fun _ =>
    { c with links := c.links.modify id fun l => { l with insn := some insn } }

structure Walk where
  front : Option Nat
  back : Option Nat
  remaining : Nat

def walk (c : Chain) : Walk := ⟨c.head, c.tail, c.length⟩

def Walk.next? (c : Chain) (w : Walk) : Option ((Nat × Instruction) × Walk) :=
  match w.remaining, w.front with
  | n + 1, some id =>
    match c.live? id with
    | some l => l.insn.map fun insn => ((id, insn), ⟨l.next, w.back, n⟩)
    | none => none
  | _, _ => none

def Walk.nextBack? (c : Chain) (w : Walk) : Option ((Nat × Instruction) × Walk) :=
  match w.remaining, w.back with
  | n + 1, some id =>
    match c.live? id with
    | some l => l.insn.map fun insn => ((id, insn), ⟨w.front, l.prev, n⟩)
    | none => none
  | _, _ => none

/-- At most `n` live instructions along the links from `id` on, with their numbers. -/
def listFrom (c : Chain) : Nat → Option Nat → List (Nat × Instruction)
  | 0, _ => []
  | _ + 1, none => []
  | n + 1, some id =>
    match c.live? id with
    | some l =>
      match l.insn with
      | some insn => (id, insn) :: c.listFrom n l.next
      | none => []
    | none => []

def toList (c : Chain) : List (Nat × Instruction) := c.listFrom c.length c.head

def backwardFrom (c : Chain) : Nat → Option Nat → List Nat
  | 0, _ => []
  | _ + 1, none => []
  | n + 1, some id =>
    match c.live? id with
    | some l => id :: c.backwardFrom n l.prev
    | none => []

def ids (c : Chain) : List Nat := c.toList.map Prod.fst

def idsBackward (c : Chain) : List Nat := c.backwardFrom c.length c.tail

def instructions (c : Chain) : List Instruction := c.toList.map Prod.snd

def ofList (insns : List Instruction) : Chain := insns.foldl push empty

def text (c : Chain) : String := String.join (c.instructions.map fun i => i.text ++ "\n")

theorem links_push_size (c : Chain) (insn : Instruction) :
    (c.push insn).links.size = c.links.size + 1 := by
  cases h : c.tail <;> simp [push, h, setNext]

end Chain

end ClientScript
