import MailTemplate.Archive.Unpack
import MailTemplate.CommandLine.Run
import MailTemplate.Script.Run

/-!
# The program

The program reads a project from its input as a tape archive, runs the command of its arguments on it,
and prints what the command prints.  The point in time is the number of seconds in `SOURCE_DATE_EPOCH`,
or the first of January 1970 without it.
-/

open MailTemplate

/-- All bytes of a stream. -/
partial def readAll (stream : IO.FS.Stream) (front : ByteArray) : IO ByteArray := do
  let chunk ← stream.read 65536
  if chunk.isEmpty then return front else readAll stream (front ++ chunk)

/-- Random numbers for boundaries. -/
def randomNumbers (count : Nat) : IO (List Nat) :=
  (List.range count).mapM fun _ => IO.rand 0 (Nat.pow 16 32 - 1)

/-- The program. -/
def main (arguments : List String) : IO UInt32 := do
  let input ← readAll (← IO.getStdin) .empty
  let seconds := ((← IO.getEnv "SOURCE_DATE_EPOCH").bind String.toInt?).getD 0
  let numbers ← randomNumbers 4096
  let surroundings : CommandLine.Surroundings :=
    { now := ⟨seconds * 1000⟩
      elapsed := 0
      boundaries := Boundary.random fun drawn => numbers.getD (drawn % 4096) 0
      programs := Disk.runProgram }
  let disk := Tar.unpack input.toList "project"
  let (ending, _) := (CommandLine.run surroundings arguments).run disk
  (← IO.getStdout).putStr ending.output
  return UInt32.ofNat ending.code
