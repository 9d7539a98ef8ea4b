import MailTemplate.Compiler.Program
import MailTemplate.File.Disk

/-!
# Small programs

The programs that scripts call: they copy, print and end.

## Main definitions

* `Script.ToolEnd` — what a run of a program leaves.
* `Script.cat`, `Script.echo`, `Script.printf` — the programs that print.
-/

namespace MailTemplate

namespace Script

/-- What a run of a small program leaves. -/
structure ToolEnd where
  /-- What it has not read. -/
  input : Bytes
  /-- What it has written to its output. -/
  output : Bytes := []
  /-- What it has written to its error output. -/
  errors : Bytes := []
  /-- Its exit code. -/
  status : Nat := 0
  deriving DecidableEq, Repr

/-! ## Copying -/

/-- The text of a fault without its number. -/
def plainReason (fault : Disk.Fault) : String :=
  match Text.indexOf? " (os error".toList fault.message.toList with
  | some i => String.ofList (fault.message.toList.take i)
  | none => fault.message

/-- Copies files and the input, as arguments name them, to the output. -/
def copyAll (disk : Disk) : List String → ToolEnd → ToolEnd
  | [], done => done
  | argument :: rest, done =>
    if argument = "-" then
      copyAll disk rest { done with input := [], output := done.output ++ done.input }
    else
      match disk.read ⟨argument⟩ with
      | .ok bytes => copyAll disk rest { done with output := done.output ++ bytes }
      | .error fault =>
        let message := "cat: " ++ argument ++ ": " ++ plainReason fault ++ "\n"
        copyAll disk rest
          { done with errors := done.errors ++ Bytes.ofString message, status := 1 }

/-- The letter of the first option among arguments. -/
def option? (arguments : List String) : Option Char :=
  (arguments.find? fun a => a.toList.head? == some '-' && a != "-").bind (·.toList[1]?)

/-- Copies files to the output, or the input if no file is named. -/
def cat (disk : Disk) (arguments : List String) (input : Bytes) : ToolEnd :=
  match option? arguments with
  | some c =>
    let message := "cat: invalid option -- '" ++ String.singleton c ++
      "'\nTry 'cat --help' for more information.\n"
    { input, errors := Bytes.ofString message, status := 1 }
  | none => copyAll disk (if arguments = [] then ["-"] else arguments) { input }

/-! ## Printing -/

/-- The value of digits in base eight. -/
def octalValue (digits : List Char) : Nat :=
  digits.foldl (fun n c => n * 8 + (c.toNat - 48)) 0

/-- Whether a character is a digit of base eight. -/
def isOctal (c : Char) : Bool := '0' ≤ c && c ≤ '7'

/-- Up to three digits of base eight at the front of a text. -/
def octalFront (cs : List Char) : List Char := (cs.takeWhile isOctal).take 3

/-- The byte of an escape of one letter. -/
def letterEscape? (c : Char) : Option UInt8 :=
  match c with
  | 'a' => some 7
  | 'b' => some 8
  | 'f' => some 12
  | 'n' => some 10
  | 'r' => some 13
  | 't' => some 9
  | 'v' => some 11
  | '\\' => some 92
  | _ => none

/-- The bytes of a text with escapes.  `leadsWithZero` tells that a zero can stand before the digits of
an escape. -/
def unescape (leadsWithZero : Bool) : List Char → Bytes
  | [] => []
  | '\\' :: c :: rest =>
    match letterEscape? c with
    | some b => b :: unescape leadsWithZero rest
    | none =>
      if isOctal c then
        let body := if leadsWithZero ∧ c = '0' then rest else c :: rest
        let digits := octalFront body
        UInt8.ofNat (octalValue digits) :: unescape leadsWithZero (body.drop digits.length)
      else Bytes.ofText ['\\', c] ++ unescape leadsWithZero rest
  | c :: rest => Bytes.ofText [c] ++ unescape leadsWithZero rest
termination_by cs => cs.length
decreasing_by
  all_goals simp_all only [List.length_cons, List.length_drop]
  · omega
  · rename_i hc
    split
    · omega
    · have : 0 < (octalFront (c :: rest)).length := by
        simp [octalFront, hc]
      simp only [List.length_cons]
      omega
  · omega
  · omega

/-- The text of a text with escapes up to the one that ends all output, and whether there is one. -/
def upToStop : List Char → List Char × Bool
  | [] => ([], false)
  | '\\' :: 'c' :: _ => ([], true)
  | '\\' :: c :: rest => let (front, stops) := upToStop rest; ('\\' :: c :: front, stops)
  | c :: rest => let (front, stops) := upToStop rest; (c :: front, stops)

/-- Prints its arguments with blanks between them, and a line end unless it is told not to. -/
def echo (arguments : List String) (input : Bytes) : ToolEnd :=
  let isOpen := arguments.head? == some "-n"
  let texts := if isOpen then arguments.drop 1 else arguments
  let (text, stops) := upToStop (String.intercalate " " texts).toList
  let ending : Bytes := if isOpen || stops then [] else [10]
  { input, output := unescape true text ++ ending }

/-- One pass over a format: what it prints and the arguments that are left. -/
def printfOnce : List Char → List String → Bytes × List String
  | [], arguments => ([], arguments)
  | '%' :: '%' :: rest, arguments =>
    let (out, left) := printfOnce rest arguments
    (37 :: out, left)
  | '%' :: 's' :: rest, arguments =>
    let (out, left) := printfOnce rest (arguments.drop 1)
    (Bytes.ofString (arguments.headD "") ++ out, left)
  | '%' :: 'b' :: rest, arguments =>
    let (out, left) := printfOnce rest (arguments.drop 1)
    (unescape true (arguments.headD "").toList ++ out, left)
  | '%' :: 'd' :: rest, arguments =>
    let (out, left) := printfOnce rest (arguments.drop 1)
    (Bytes.ofString (arguments.headD "0") ++ out, left)
  | '\\' :: c :: rest, arguments =>
    let digits := octalFront (c :: rest)
    if isOctal c then
      let (out, left) := printfOnce (rest.drop (digits.length - 1)) arguments
      (UInt8.ofNat (octalValue digits) :: out, left)
    else
      let (out, left) := printfOnce rest arguments
      ((match letterEscape? c with
        | some b => [b]
        | none => Bytes.ofText ['\\', c]) ++ out, left)
  | c :: rest, arguments =>
    let (out, left) := printfOnce rest arguments
    (Bytes.ofText [c] ++ out, left)
termination_by cs => cs.length
decreasing_by all_goals simp only [List.length_cons, List.length_drop]; omega

/-- Passes over a format until no argument is left, or none is used. -/
def printfAll (format : List Char) : Nat → List String → Bytes
  | 0, _ => []
  | n + 1, arguments =>
    let (out, left) := printfOnce format arguments
    if left = [] ∨ left.length = arguments.length then out else out ++ printfAll format n left

/-- Prints its arguments in the way that a format tells. -/
def printf (arguments : List String) (input : Bytes) : ToolEnd :=
  match arguments with
  | [] => { input, errors := Bytes.ofString "printf: usage: printf format [arg ...]\n", status := 2 }
  | format :: rest => { input, output := printfAll format.toList (rest.length + 1) rest }

end Script

end MailTemplate
