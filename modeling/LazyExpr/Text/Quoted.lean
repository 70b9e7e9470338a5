namespace LazyExpr

namespace Quoted

/-- A character of a string literal: five characters have an escape, all others stand for themselves. -/
def escape (c : Char) : List Char :=
  if c = '"' then ['\\', '"']
  else if c = '\\' then ['\\', '\\']
  else if c = '\n' then ['\\', 'n']
  else if c = '\t' then ['\\', 't']
  else if c = '\r' then ['\\', 'r']
  else [c]

/-- What a backslash and a character stand for. A pair that is no escape stands for itself. -/
def unescape (c : Char) : List Char :=
  if c = 'n' then ['\n']
  else if c = 't' then ['\t']
  else if c = 'r' then ['\r']
  else if c = '"' then ['"']
  else if c = '\\' then ['\\']
  else ['\\', c]

/-- The literal of these characters, quotes included. -/
def encode (content : List Char) : List Char := '"' :: content.flatMap escape ++ ['"']

/-- Splits the text behind an opening quote into what the literal stands for, the characters up to and
including the closing quote, and the rest. -/
@[simp] def decodeBody : List Char → Option (List Char × List Char × List Char)
  | [] => none
  | '"' :: rest => some ([], ['"'], rest)
  | ['\\'] => none
  | '\\' :: c :: rest =>
    (decodeBody rest).map fun (content, taken, rest) => (unescape c ++ content, '\\' :: c :: taken, rest)
  | c :: rest => (decodeBody rest).map fun (content, taken, rest) => (c :: content, c :: taken, rest)

/-- Splits a text that starts with a literal into its content, its characters and the rest. -/
def decode : List Char → Option (List Char × List Char × List Char)
  | '"' :: rest => (decodeBody rest).map fun (content, taken, rest) => (content, '"' :: taken, rest)
  | _ => none

end Quoted

/-- The literal of a string. -/
def quoted (s : String) : String := String.ofList (Quoted.encode s.toList)

end LazyExpr
