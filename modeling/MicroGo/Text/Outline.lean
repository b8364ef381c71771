/-!
# Indented outlines

An outline is a tree of labelled items, written one item to a line with four blanks to a level and
a comma after each item.  A group without items closes on the line on which it opens.
-/

namespace MicroGo
namespace Text

/-- A tree of labelled items.  A group is written between its opening and closing text; the label
of an item is written before it and is empty where the position says enough. -/
inductive Outline where
  | leaf (text : String)
  | group (opening closing : String) (items : List (String × Outline))

namespace Outline

/-- A value that holds named fields. -/
def record (name : String) (fields : List (String × Outline)) : Outline :=
  group (name ++ " \x7b") "\x7d" (fields.map fun field => (field.1 ++ ": ", field.2))

/-- A value that wraps one other value. -/
def wrap (name : String) (content : Outline) : Outline :=
  group (name ++ "(") ")" [("", content)]

/-- Values one after the other. -/
def list (items : List Outline) : Outline :=
  group "[" "]" (items.map fun item => ("", item))

/-- A value that may be missing. -/
def optional : Option Outline → Outline
  | none => leaf "None"
  | some content => wrap "Some" content

/-- The line break and the indentation of level `level`. -/
def lineBreak (level : Nat) : String :=
  "\n" ++ String.ofList (List.replicate (4 * level) ' ')

mutual

/-- The text of an outline whose first line stands at level `level`. -/
def renderAt (level : Nat) : Outline → String
  | leaf text => text
  | group opening closing [] => opening ++ closing
  | group opening closing (item :: items) =>
      opening ++ renderItems (level + 1) (item :: items) ++ lineBreak level ++ closing

/-- The lines of the items of a group, each after its line break and before its comma. -/
def renderItems (level : Nat) : List (String × Outline) → String
  | [] => ""
  | (label, item) :: items =>
      lineBreak level ++ label ++ renderAt level item ++ "," ++ renderItems level items

end

/-- The text of an outline. -/
def render (outline : Outline) : String :=
  renderAt 0 outline

end Outline
end Text
end MicroGo
