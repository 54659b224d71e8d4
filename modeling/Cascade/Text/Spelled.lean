import Cascade.Text.Hidden

/-! # Strings for inspection

A spelled string stands in quotes and shows every character: hidden ones by their number.
-/
namespace Cascade.Text

def spelledChar (c : Char) : List Char :=
  if c = '"' then ['\\', '"']
  else if c = '\\' then ['\\', '\\']
  else if c = '\n' then ['\\', 'n']
  else if c = '\r' then ['\\', 'r']
  else if c = '\t' then ['\\', 't']
  else if c = '\x00' then ['\\', '0']
  else if isHidden c then ['\\', 'u', '\x7b'] ++ Nat.toDigits 16 c.toNat ++ ['\x7d']
  else [c]

def spelled (s : String) : String :=
  String.ofList ('"' :: s.toList.flatMap spelledChar ++ ['"'])

def commaSeparated (parts : List String) : String := ", ".intercalate parts

def bracketed (parts : List String) : String := "[" ++ commaSeparated parts ++ "]"

def braced (parts : List String) : String := "\x7b" ++ commaSeparated parts ++ "\x7d"

def flag (b : Bool) : String := if b then "true" else "false"

def labelled (fields : List (String × String)) : List String :=
  fields.map fun f => f.1 ++ ": " ++ f.2

def record (name : String) (fields : List (String × String)) : String :=
  name ++ " \x7b " ++ commaSeparated (labelled fields) ++ " \x7d"

def partOfRecord (name : String) (fields : List (String × String)) : String :=
  name ++ " \x7b " ++ commaSeparated (labelled fields ++ [".."]) ++ " \x7d"

end Cascade.Text
