import ClientScript.Prototype
import ClientScript.Script

/-!
What a run works on: the scripts by id, and the declared prototypes of parameters and database
columns.
-/
namespace ClientScript

abbrev Corpus := IntMap Script

structure Declarations where
  params : IntMap Prototype
  /-- One prototype per field of the column. -/
  columns : IntMap (List Prototype)

def Declarations.none : Declarations := ⟨.empty, .empty⟩

end ClientScript
