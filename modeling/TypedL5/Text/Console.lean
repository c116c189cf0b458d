import TypedL5.Text.Width

/-!
Text as a console shows it: without the control characters that would move the cursor about,
and with spaces for tabs. How many spaces depends on where the console stands after the text
before.

A character takes its own columns, with two exceptions. The character after a joiner is drawn
together with the one before it and takes none. A selector of pictures makes the character
before it a picture, which takes one column more where that character is a sign of one column.
-/
namespace TypedL5.Text

/-- The zero width joiner. -/
def joiner : Char := Char.ofNat 0x200D

/-- The selector of pictures, which is the sixteenth variation selector. -/
def pictureSelector : Char := Char.ofNat 0xFE0F

structure Cursor where
  column : Nat := 0
  /-- The latest character with a column, unless a selector has been applied to it. -/
  latest? : Option Char := none
  /-- Whether the next character is joined to what is before it. -/
  joining : Bool := false
deriving DecidableEq, Repr

namespace Cursor

/-- The columns that a selector of pictures adds. -/
def growth (k : Cursor) : Nat :=
  match k.latest? with
  | some c => if isPictureSign c then 1 else 0
  | none => 0

/-- Shows one character. -/
def step (k : Cursor) (c : Char) : Cursor :=
  if k.joining then { k with joining := false }
  else if c = joiner then { k with joining := true }
  else if c = pictureSelector then { column := k.column + k.growth }
  else if width c = 0 then k
  else { column := k.column + width c, latest? := some c }

/-- The columns from one tab stop to the next. -/
def tabStop : Nat := 8

/-- The spaces that stand for a tab: one, and more up to the next tab stop. -/
def tabSpaces (k : Cursor) : Nat :=
  1 + (tabStop - (k.step ' ').column % tabStop) % tabStop

/-- The place after a tab. Nothing is joined across it. -/
def tab (k : Cursor) : Cursor :=
  let column := (k.step ' ').column
  { column := column + (tabStop - column % tabStop) % tabStop }

end Cursor

/-- Bell, backspace, vertical tab, form feed and carriage return. -/
def isControl (c : Char) : Bool :=
  c.toNat == 7 || c.toNat == 8 || c.toNat == 11 || c.toNat == 12 || c.toNat == 13

/-- A text without cursor controls. -/
def dropControls (text : String) : String :=
  String.ofList (text.toList.filter fun c => !isControl c)

/-- Writes spaces for each tab of a text that begins where the cursor stands. -/
def expandTabs (k : Cursor) : List Char → List Char
  | [] => []
  | c :: cs =>
    if c = '\n' then c :: expandTabs {} cs
    else if c = '\t' then List.replicate k.tabSpaces ' ' ++ expandTabs k.tab cs
    else c :: expandTabs (k.step c) cs

/-- A text as one print of it shows on the console. -/
def printed (text : String) : String :=
  String.ofList (expandTabs {} (dropControls text).toList) ++ "\n"

end TypedL5.Text
