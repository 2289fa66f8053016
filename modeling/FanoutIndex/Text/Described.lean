import FanoutIndex.Text.Quoted

/-!
# Descriptions

A description tells the parts of a value by name. It is laid out on one line, or as a block with a
line of its own for every part, indented by four spaces and followed by a comma.
-/

namespace FanoutIndex

/-- Values that have a text, shown as it is and without quotes. -/
class Printed (V : Type) where
  text : V → String

instance : Printed String := ⟨id⟩

instance : Printed UInt64 := ⟨toString⟩

namespace Text

/-- What a value consists of. -/
inductive Described where
  /-- A number, a truth value or a bare name. -/
  | word (text : String)
  /-- A text, shown in quotes. -/
  | text (value : String)
  /-- A name with one unnamed part. -/
  | wrapped (name : String) (part : Described)
  /-- A name with named parts; in a partial record two dots stand for those that are not told. -/
  | record (name : String) (parts : List (String × Described)) (isPartial : Bool)
  /-- A row of values. -/
  | row (items : List Described)

namespace Described

def ofNat (n : Nat) : Described := .word (toString n)

def ofBool (b : Bool) : Described := .word (toString b)

/-- A text that may be missing. -/
def ofOption : Option String → Described
  | none => .word "None"
  | some value => .wrapped "Some" (.text value)

mutual

/-- The description on one line. -/
def line : Described → String
  | .word name => name
  | .text value => quote value
  | .wrapped name part => name ++ "(" ++ part.line ++ ")"
  | .record name parts isPartial =>
    let told := if isPartial then partLines parts ++ [".."] else partLines parts
    name ++ " \x7b " ++ ", ".intercalate told ++ " \x7d"
  | .row items => "[" ++ ", ".intercalate (itemLines items) ++ "]"

def partLine : String × Described → String
  | (name, part) => name ++ ": " ++ part.line

def partLines : List (String × Described) → List String
  | [] => []
  | part :: rest => partLine part :: partLines rest

def itemLines : List Described → List String
  | [] => []
  | item :: rest => item.line :: itemLines rest

end

mutual

/-- The description as a block whose inner lines start with the margin and one more indentation. -/
def blockAt (margin : String) : Described → String
  | .word name => name
  | .text value => quote value
  | .wrapped name part =>
    let inner := margin ++ "    "
    name ++ "(\n" ++ inner ++ part.blockAt inner ++ ",\n" ++ margin ++ ")"
  | .record name parts isPartial =>
    let inner := margin ++ "    "
    let rest := if isPartial then inner ++ "..\n" else ""
    name ++ " \x7b\n" ++ partBlocks inner parts ++ rest ++ margin ++ "\x7d"
  | .row [] => "[]"
  | .row (item :: items) =>
    let inner := margin ++ "    "
    "[\n" ++ inner ++ item.blockAt inner ++ ",\n" ++ itemBlocks inner items ++ margin ++ "]"

def partBlock (margin : String) : String × Described → String
  | (name, part) => margin ++ name ++ ": " ++ part.blockAt margin ++ ",\n"

def partBlocks (margin : String) : List (String × Described) → String
  | [] => ""
  | part :: rest => partBlock margin part ++ partBlocks margin rest

def itemBlocks (margin : String) : List Described → String
  | [] => ""
  | item :: rest => margin ++ item.blockAt margin ++ ",\n" ++ itemBlocks margin rest

end

def block (d : Described) : String := d.blockAt ""

end Described

end Text

end FanoutIndex
