import MailTemplate.Text.Basic

/-!
# Blanks, keys and strings

The small parts of a configuration file.  A reader takes a text and gives what it read with the rest
of the text, or nothing if the text does not begin that way.

## Main definitions

* `Toml.lineEnd?`, `Toml.dropBlanks`, `Toml.dropFiller` — line ends and what may stand between
  tokens.
* `Toml.string?` — the four kinds of string.
* `Toml.dottedKey?` — keys with dots between them.
-/

namespace MailTemplate

namespace Toml

/-- A reader. -/
abbrev Reader (α : Type) := List Char → Option (α × List Char)

/-! ## Blanks -/

/-- The blanks inside a line. -/
def isLineBlank (c : Char) : Bool := c == ' ' || c == '\t'

/-- A text without leading blanks. -/
def dropBlanks (cs : List Char) : List Char := cs.dropWhile isLineBlank

/-- The text behind a line end. -/
def lineEnd? : List Char → Option (List Char)
  | '\n' :: rest => some rest
  | '\r' :: '\n' :: rest => some rest
  | _ => none

/-- The characters of a comment: all but the control characters other than the tab. -/
def isCommentChar (c : Char) : Bool := c == '\t' || (0x20 ≤ c.toNat && c.toNat ≠ 0x7F)

/-- A text without the comment that it may begin with. -/
def dropComment : List Char → List Char
  | '#' :: rest => rest.dropWhile isCommentChar
  | cs => cs

/-- The text behind blanks, a comment and the end of the line, the end of the file counting as
one. -/
def lineRest? (cs : List Char) : Option (List Char) :=
  match dropComment (dropBlanks cs) with
  | [] => some []
  | rest => lineEnd? rest

/-- A text without leading blanks, comments and line ends. -/
def dropFiller (cs : List Char) : List Char :=
  match cs with
  | [] => []
  | c :: rest =>
    if isLineBlank c ∨ c = '\n' then dropFiller rest
    else if c = '\r' ∧ rest.head? = some '\n' then dropFiller rest
    else if c = '#' then dropFiller (rest.dropWhile isCommentChar)
    else c :: rest
termination_by cs.length
decreasing_by
  all_goals simp only [List.length_cons]
  · omega
  · omega
  · have := (List.dropWhile_sublist isCommentChar (l := rest)).length_le
    omega

/-- A text without leading blanks and line ends. -/
def dropBlankLines : List Char → List Char
  | '\r' :: '\n' :: rest => dropBlankLines rest
  | c :: rest => if isLineBlank c ∨ c = '\n' then dropBlankLines rest else c :: rest
  | [] => []

/-! ## Escapes -/

/-- The value of a digit of base sixteen. -/
def hexValue? (c : Char) : Option Nat :=
  if c.isDigit then some (c.toNat - '0'.toNat)
  else if 'a' ≤ c ∧ c ≤ 'f' then some (c.toNat - 'a'.toNat + 10)
  else if 'A' ≤ c ∧ c ≤ 'F' then some (c.toNat - 'A'.toNat + 10)
  else none

/-- The number that digits of base sixteen write. -/
def hexNumber? (cs : List Char) : Option Nat :=
  cs.foldlM (fun n c => (hexValue? c).map (16 * n + ·)) 0

/-- The character of a code point. -/
def char? (n : Nat) : Option Char :=
  if n < 0xD800 ∨ (0xDFFF < n ∧ n < 0x110000) then some (Char.ofNat n) else none

/-- The character whose code point so many digits write. -/
def codePoint? (count : Nat) : Reader Char := fun cs =>
  if cs.length < count then none
  else ((hexNumber? (cs.take count)).bind char?).map fun c => (c, cs.drop count)

/-- The character that stands behind a backslash. -/
def escape? : Reader Char
  | 'b' :: rest => some ('\x08', rest)
  | 'f' :: rest => some ('\x0c', rest)
  | 'n' :: rest => some ('\n', rest)
  | 'r' :: rest => some ('\r', rest)
  | 't' :: rest => some ('\t', rest)
  | '\\' :: rest => some ('\\', rest)
  | '"' :: rest => some ('"', rest)
  | 'u' :: rest => codePoint? 4 rest
  | 'U' :: rest => codePoint? 8 rest
  | _ => none

/-! ## Strings -/

/-- The characters that stand for themselves in a string, quotes and backslashes apart. -/
def isStringChar (c : Char) : Bool := isCommentChar c

/-- The rest of a string of one line whose escapes are read. -/
def basicRest? (fuel : Nat) (taken : List Char) (cs : List Char) :
    Option (List Char × List Char) :=
  match fuel, cs with
  | 0, _ => none
  | _, [] => none
  | _ + 1, '"' :: rest => some (taken.reverse, rest)
  | fuel + 1, '\\' :: rest => (escape? rest).bind fun (c, rest) => basicRest? fuel (c :: taken) rest
  | fuel + 1, c :: rest => if isStringChar c then basicRest? fuel (c :: taken) rest else none

/-- The rest of a string of one line whose characters all stand for themselves. -/
def literalRest? (cs : List Char) : Option (List Char × List Char) :=
  match cs.dropWhile fun c => isStringChar c && c != '\'' with
  | '\'' :: rest => some (cs.takeWhile fun c => isStringChar c && c != '\'', rest)
  | _ => none

/-- The end of a string of several lines: three quotes, before which one or two more can stand that
belong to the string. -/
def closing? (quote : Char) (cs : List Char) : Option (List Char × List Char) :=
  let quotes := (cs.takeWhile (· == quote)).length
  if quotes < 3 then none
  else
    let inside := min (quotes - 3) 2
    some (List.replicate inside quote, cs.drop (inside + 3))

/-- The text behind a backslash that ends a line: blanks and line ends, one at least. -/
def continuation? (cs : List Char) : Option (List Char) :=
  (lineEnd? (dropBlanks cs)).map dropBlankLines

/-- The rest of a string of several lines. -/
def multilineRest? (quote : Char) (fuel : Nat) (taken : List Char) (cs : List Char) :
    Option (List Char × List Char) :=
  match fuel, cs with
  | 0, _ => none
  | _, [] => none
  | fuel + 1, c :: rest =>
    if c = quote then
      match closing? quote (c :: rest) with
      | some (inside, rest) => some (taken.reverse ++ inside, rest)
      | none => multilineRest? quote fuel (c :: taken) rest
    else if c = '\\' ∧ quote = '"' then
      match continuation? rest with
      | some rest => multilineRest? quote fuel taken rest
      | none =>
        (escape? rest).bind fun (c, rest) => multilineRest? quote fuel (c :: taken) rest
    else
      match lineEnd? (c :: rest) with
      | some rest => multilineRest? quote fuel ('\n' :: taken) rest
      | none => if isStringChar c then multilineRest? quote fuel (c :: taken) rest else none

/-- The rest of a string of several lines, whose first line end does not count if nothing stands
before it. -/
def multiline? (quote : Char) (cs : List Char) : Option (List Char × List Char) :=
  multilineRest? quote cs.length [] ((lineEnd? cs).getD cs)

/-- A string of one line. -/
def lineString? : Reader (List Char)
  | '"' :: rest => basicRest? rest.length [] rest
  | '\'' :: rest => literalRest? rest
  | _ => none

/-- A string. -/
def string? : Reader (List Char)
  | '"' :: '"' :: '"' :: rest => multiline? '"' rest
  | '\'' :: '\'' :: '\'' :: rest => multiline? '\'' rest
  | cs => lineString? cs

/-! ## Keys -/

/-- The characters of a key without quotes. -/
def isBareKeyChar (c : Char) : Bool := c.isAlphanum || c == '-' || c == '_'

/-- A key without dots. -/
def simpleKey? : Reader String
  | '"' :: rest => (lineString? ('"' :: rest)).map fun (k, rest) => (String.ofList k, rest)
  | '\'' :: rest => (lineString? ('\'' :: rest)).map fun (k, rest) => (String.ofList k, rest)
  | cs =>
    let key := cs.takeWhile isBareKeyChar
    if key = [] then none else some (String.ofList key, cs.drop key.length)

/-- How deep keys and values can be nested. -/
def maxDepth : Nat := 79

/-- Keys with dots between them and blanks around each, so many at most. -/
def keys? (fuel : Nat) (cs : List Char) : Option (List String × List Char) :=
  match fuel with
  | 0 => none
  | fuel + 1 =>
    (simpleKey? (dropBlanks cs)).bind fun (key, rest) =>
      match dropBlanks rest with
      | '.' :: rest => (keys? fuel rest).map fun (keys, rest) => (key :: keys, rest)
      | rest => some ([key], rest)

/-- Keys with dots between them. -/
def dottedKey? : Reader (List String) := keys? maxDepth

end Toml

end MailTemplate
