import Univariate.Chart
import Univariate.Wire

/-!
# A worksheet of equations

Equations are written into named slots.  Writing into a slot for the
first time makes a new equation, which is read as the settings say;
writing into it again changes the text of that equation, which stays the
same one.  What an equation is asked for is computed from what it says
then, and from nothing else.

* `Definition.parse`, `Definition.normalForm`, `Definition.samples` — what
  can be asked of an equation;
* `Worksheet.define` — writing into a slot;
* `Worksheet.parse`, `Worksheet.normalForm`, `Worksheet.samples` — writing
  into a slot and asking the equation that is then in it;
* `Settings.samples` — the curve of a text that is written nowhere.
-/

namespace Univariate

/-- The curve of the polynomial that a text writes.  What is not a
polynomial has none. -/
def Settings.samples (s : Settings) (text : String) : Except Error Samples := do
  let _ ← s.normalForm text
  return .ofExpr (← s.parse text).fold

/-- Equations by the order in which they were made. -/
structure Equation where
  index : Nat
deriving DecidableEq, Repr

/-- What an equation says, and how it is to be read. -/
structure Definition where
  text : String
  /-- The name of the one variable. -/
  name : String
  /-- The highest degree that expanding may produce. -/
  maxDegree : Nat
deriving DecidableEq, Repr

namespace Definition

/-- The expression that the text writes. -/
def parse (d : Definition) : Except Error (Expr Float) := Expr.parse d.name d.text

/-- The normal form of the polynomial that the text writes. -/
def normalForm (d : Definition) : Except Error (NormalForm Float) := do
  (← d.parse).normalize d.maxDegree

/-- The curve of the polynomial that the text writes.  What has no normal
form is never evaluated. -/
def samples (d : Definition) : Except Error Samples := do
  let _ ← d.normalForm
  return .ofExpr (← d.parse).fold

end Definition

/-- The equations, and the slots that they are in. -/
@[ext] structure Worksheet where
  settings : Settings
  /-- What the equations say, in the order in which they were made. -/
  definitions : List Definition
  /-- The slots that have been written into, with their equations. -/
  slots : List (String × Equation)
  /-- What is in a slot has been made. -/
  made : ∀ entry ∈ slots, entry.2.index < definitions.length

namespace Worksheet

/-- Nothing is written. -/
def empty (settings : Settings) : Worksheet := ⟨settings, [], [], nofun⟩

/-- The equation is one of this worksheet. -/
def Has (w : Worksheet) (e : Equation) : Prop := e.index < w.definitions.length

/-- What an equation says. -/
def definition (w : Worksheet) (e : Equation) (h : w.Has e) : Definition :=
  w.definitions[e.index]

/-- The equation in a slot. -/
def find? (w : Worksheet) (slot : String) : Option Equation := w.slots.lookup slot

/-- What is found in a slot is one of the worksheet's equations. -/
theorem has_of_find? {w : Worksheet} {slot : String} {e : Equation}
    (h : w.find? slot = some e) : w.Has e := by
  obtain ⟨before, after, hslots, -⟩ := List.lookup_eq_some_iff.mp h
  exact w.made (slot, e) (hslots ▸ List.mem_append_right before List.mem_cons_self)

/-- Gives an equation another text. -/
def setText (w : Worksheet) (e : Equation) (h : w.Has e) (text : String) : Worksheet :=
  { w with
    definitions := w.definitions.set e.index { w.definition e h with text := text }
    made := by
      rw [List.length_set]
      exact w.made }

/-- Another text takes no equation away. -/
theorem has_setText {w : Worksheet} {e : Equation} (h : w.Has e) (text : String) :
    (w.setText e h text).Has e :=
  Nat.lt_of_lt_of_eq h List.length_set.symm

/-- Makes an equation in a slot that has none. -/
def create (w : Worksheet) (slot text : String) : Worksheet × Equation :=
  let e : Equation := ⟨w.definitions.length⟩
  ({ w with
      definitions := w.definitions ++ [⟨text, w.settings.name, w.settings.maxDegree⟩]
      slots := w.slots ++ [(slot, e)]
      made := by
        intro entry hentry
        rw [List.length_append, List.length_singleton]
        rcases List.mem_append.mp hentry with hold | hnew
        · exact Nat.lt_succ_of_lt (w.made entry hold)
        · rw [List.mem_singleton.mp hnew]
          exact Nat.lt_succ_self _ }, e)

/-- The equation that has just been made is there. -/
theorem has_create (w : Worksheet) (slot text : String) :
    (w.create slot text).1.Has (w.create slot text).2 := by
  have hlength : (w.create slot text).1.definitions.length = w.definitions.length + 1 :=
    List.length_append
  exact Nat.lt_of_lt_of_eq (Nat.lt_succ_self _) hlength.symm

/-- Writes a text into a slot.  An equation that already says it stays
untouched. -/
def define (w : Worksheet) (slot text : String) : Worksheet × Equation :=
  match h : w.find? slot with
  | some e =>
    if (w.definition e (has_of_find? h)).text = text then (w, e)
    else (w.setText e (has_of_find? h) text, e)
  | none => w.create slot text

/-- The equation that has just been written is there. -/
theorem has_define (w : Worksheet) (slot text : String) :
    (w.define slot text).1.Has (w.define slot text).2 := by
  unfold define
  split
  next e h =>
    split
    · exact has_of_find? h
    · exact has_setText (has_of_find? h) text
  next => exact w.has_create slot text

/-- Writes a text into a slot, and looks up what its equation then says. -/
def write (w : Worksheet) (slot text : String) : Worksheet × Definition :=
  let defined := w.define slot text
  (defined.1, defined.1.definition defined.2 (w.has_define slot text))

/-- Writes a text into a slot and reads it as an expression. -/
def parse (w : Worksheet) (slot text : String) : Worksheet × Except Error (Expr Float) :=
  let (w, d) := w.write slot text
  (w, d.parse)

/-- Writes a text into a slot and takes its normal form. -/
def normalForm (w : Worksheet) (slot text : String) :
    Worksheet × Except Error (NormalForm Float) :=
  let (w, d) := w.write slot text
  (w, d.normalForm)

/-- Writes a text into a slot and samples its curve. -/
def samples (w : Worksheet) (slot text : String) : Worksheet × Except Error Samples :=
  let (w, d) := w.write slot text
  (w, d.samples)

end Worksheet

end Univariate
