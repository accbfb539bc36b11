/-
The markup of printed labels. A tag stands in brackets and begins with a small letter or one of
`#`, `/` and `@`; tags give a style and leave no trace in plain text. Backslashes before a tag are
halved, and an odd one makes the tag ordinary text; a backslash before any other opening bracket
vanishes.
-/
import PlaceMap.Text.Split
import PlaceMap.Text.Width

namespace PlaceMap.Markup

/-- A character with which a tag may begin. -/
def isTagStart (c : Char) : Bool := ('a' ≤ c && c ≤ 'z') || c = '#' || c = '/' || c = '@'

/-- The length of a tag behind its opening bracket, if one begins there: no other bracket opens
before it closes. -/
def tagLength? : List Char → Option Nat
  | [] => none
  | c :: rest =>
    if isTagStart c then
      let inner := rest.takeWhile fun d => d ≠ '[' ∧ d ≠ ']'
      match rest.drop inner.length with
      | ']' :: _ => some (inner.length + 2)
      | _ => none
    else none

/-- Some backslashes. -/
def backslashes (n : Nat) : List Char := List.replicate n '\\'

/-- Marks every tag in a text as ordinary text, with `pending` backslashes before the text. -/
def guardTags (pending : Nat) : List Char → List Char
  | [] => backslashes pending
  | c :: rest =>
    if c = '\\' then guardTags (pending + 1) rest
    else if c = '[' ∧ (tagLength? rest).isSome then
      backslashes (2 * pending + 1) ++ '[' :: guardTags 0 rest
    else backslashes pending ++ c :: guardTags 0 rest

/-- Writes a text for use inside markup. A single backslash at its end is doubled. -/
def escape (cs : List Char) : List Char :=
  let guarded := guardTags 0 cs
  match guarded.reverse with
  | '\\' :: '\\' :: _ => guarded
  | '\\' :: _ => guarded ++ ['\\']
  | _ => guarded

/-- The plain text of markup, with `pending` backslashes before it and after `skip` characters of a
tag. -/
def plainFrom : Nat → Nat → List Char → List Char
  | _, pending, [] => backslashes pending
  | skip + 1, pending, _ :: rest => plainFrom skip pending rest
  | 0, pending, c :: rest =>
    if c = '\\' then plainFrom 0 (pending + 1) rest
    else if c = '[' then
      match tagLength? rest with
      | some length =>
        if pending % 2 = 0 then backslashes (pending / 2) ++ plainFrom length 0 rest
        else backslashes (pending / 2) ++ '[' :: plainFrom 0 0 rest
      | none => backslashes (pending - 1) ++ '[' :: plainFrom 0 0 rest
    else backslashes pending ++ c :: plainFrom 0 0 rest

/-- The plain text of markup. -/
def plain (cs : List Char) : List Char := plainFrom 0 0 cs

/-- The tag that ends a style. -/
def closing : List Char := ['[', '/', ']']

/-- The plain text of a heading in a style followed by a text. -/
def styled (style heading text : String) : List Char :=
  plain (style.toList ++ heading.toList ++ escape text.toList ++ closing)

/-- The plain text of a heading in a style, followed by a text without one. -/
def headed (style heading text : String) : List Char :=
  plain (style.toList ++ heading.toList ++ closing ++ ' ' :: escape text.toList)

/-- The control characters that are not printed: bell, backspace, vertical tab, form feed and carriage
return. -/
def isUnprinted (c : Char) : Bool :=
  c.toNat = 7 || c.toNat = 8 || c.toNat = 11 || c.toNat = 12 || c.toNat = 13

/-- The distance between tab stops. -/
def tabSize : Nat := 8

/-- A part of a line that a tab ends, with spaces up to a tab stop in place of the tab: at least
one. -/
def filled (part : List Char) : List Char :=
  let column := Text.width (part ++ [' '])
  part ++ ' ' :: List.replicate ((tabSize - column % tabSize) % tabSize) ' '

/-- The parts of a line with spaces in place of the tabs between them. Each part but the last ends
at a tab stop, so that the next one counts its columns from there. -/
def fillTabs : List (List Char) → List Char
  | [] => []
  | [part] => part
  | part :: rest => filled part ++ fillTabs rest

/-- Replaces every tab of a line by spaces up to the next tab stop. -/
def expandTabs (line : List Char) : List Char := fillTabs (Text.split '\t' line)

end PlaceMap.Markup
