import ParseKit.Effect
import ParseKit.Script.Value
/-!
What evaluation changes: the events put down so far, the cells of shared parsers, and the
names given to values that equal only themselves. A cell holds the expression of its
parser until the first application builds it, and the parser from then on. Events are only
ever added, and so are cells. What is made while a parser is built has names of its own, so
that names do not tell which parsers have been built before.
-/
namespace ParseKit.Script

inductive Event where
  | note (v : Value)
  | record (r : Record)

structure Cell where
  name : Name
  tag : Option Text
  body : Expr
  env : Env
  built : Option Value

structure Store where
  cells : Array Cell
  events : Array Event
  name : Name

namespace Store

def empty : Store := ⟨#[], #[], 0⟩

def addEvent (e : Event) : Store → Store
  | ⟨cells, events, name⟩ => ⟨cells, events.push e, name⟩

def addCell (c : Cell) : Store → Store
  | ⟨cells, events, name⟩ => ⟨cells.push c, events, name⟩

def naming (name : Name) : Store → Store
  | ⟨cells, events, _⟩ => ⟨cells, events, name⟩

/- Of two cells with one name the latest counts. -/
def cell? (w : Store) (id : Name) : Option Cell := w.cells.toList.findRev? fun c => c.name == id

instance : Journal Store where
  add r := addEvent (.record r)

end Store

abbrev Run (α : Type) : Type := Eff Store α

namespace Run

def note (v : Value) : Run Unit := Eff.modify (Store.addEvent (.note v))

def name : Run Name := fun w => (.done w.name, w.naming w.name.next)

def cellName : Run Name := fun w => (.done w.name.ofCell, w.naming w.name.nextCell)

def share (tag : Option Text) (body : Expr) (env : Env) : Run Name := do
  let id ← cellName
  Eff.modify (Store.addCell ⟨id, tag, body, env, none⟩)
  pure id

def cell? (id : Name) : Run (Option Cell) := fun w => (.done (w.cell? id), w)

def building {α : Type} (id : Name) (x : Run α) : Run α := fun w =>
  let (exit, after) := x (w.naming (.inner id w.name.stage 0 0))
  (exit, after.naming w.name)

/- Keeps the parser that a cell's expression has built, unless the cell has been filled
meanwhile. The result is what the cell holds. -/
def fill (id : Name) (v : Value) : Run Value := do
  match ← cell? id with
  | none => pure v
  | some ⟨_, _, _, _, some first⟩ => pure first
  | some ⟨name, tag, body, env, none⟩ =>
    Eff.modify (Store.addCell ⟨name, tag, body, env, some v⟩)
    pure v

def number (x : Binary64) : Run Value := do
  if x.isNaN then return .float ⟨x, some (← name)⟩ else return .float x

def make : Made → Run Value
  | .parser g => return .parser (.made (← name)) g
  | .value v => pure v

end Run

end ParseKit.Script
