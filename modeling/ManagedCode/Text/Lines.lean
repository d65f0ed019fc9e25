namespace ManagedCode

/-! Texts that are made of lines. -/

/-- Indented lines take four blanks more than what encloses them. -/
def indent (lines : List String) : List String :=
  lines.map ("    " ++ ·)

/-- The text of some lines, each with a line feed at its end. -/
def joinLines (lines : List String) : String :=
  String.join (lines.map (· ++ "\n"))

/-- The lines of a text without their ends: a line feed, with or without a carriage return before
it. The last line may lack its end. -/
def textLines (text : String) : List String :=
  let parts := text.splitOn "\n"
  let parts := if parts.getLast? = some "" then parts.dropLast else parts
  parts.map fun line => if line.endsWith "\r" then (line.dropEnd 1).toString else line

end ManagedCode
