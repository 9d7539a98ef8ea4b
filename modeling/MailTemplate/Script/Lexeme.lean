import MailTemplate.Text.Basic

/-!
# Words and signs of scripts

A script consists of words and signs.  A word is made of pieces: texts and parameters, each quoted or
not.  Between single quotes every character stands for itself; between double quotes parameters are
put in and some characters can be escaped.

## Main definitions

* `Script.Piece`, `Script.Lexeme` — pieces of words, and words and signs.
* `Script.lexemes?` — the lexemes of a script, unless a quotation does not end.
-/

namespace MailTemplate

namespace Script

/-- A piece of a word. -/
inductive Piece where
  /-- A character that stands for itself. -/
  | char (c : Char) (isQuoted : Bool)
  /-- A parameter. -/
  | parameter (name : Char) (isQuoted : Bool)
  /-- A quotation, which makes a word even if there is nothing in it. -/
  | quotation
  deriving DecidableEq, Repr

/-- What a redirection leads to. -/
inductive Target where
  /-- The file that the next word names, to write it. -/
  | write
  /-- The file that the next word names, to read it. -/
  | read
  /-- Where another stream leads. -/
  | sameAs (stream : Nat)
  deriving DecidableEq, Repr

/-- When a command is run after another one. -/
inductive Joint where
  /-- In any case. -/
  | always
  /-- If the other one has succeeded. -/
  | onSuccess
  /-- If the other one has failed. -/
  | onFailure
  deriving DecidableEq, Repr

/-- A word or a sign. -/
inductive Lexeme where
  /-- A word. -/
  | word (pieces : List Piece)
  /-- A redirection of a stream. -/
  | redirection (stream : Nat) (target : Target)
  /-- The end of a command. -/
  | joint (joint : Joint)
  deriving DecidableEq, Repr

/-- How the characters of a script are read. -/
inductive Mode where
  /-- Outside of quotations. -/
  | plain
  /-- Between single quotes. -/
  | single
  /-- Between double quotes. -/
  | double
  /-- In a comment. -/
  | comment
  deriving DecidableEq, Repr

/-- Whether a character after a dollar sign names a parameter. -/
def namesParameter (c : Char) : Bool := c.isDigit || ['$', '#', '@', '*', '?'].contains c

/-- The lexeme of a word that ends, if there is one. -/
def flush (word : List Piece) : List Lexeme := if word = [] then [] else [.word word]

/-- The stream that is redirected by a sign behind a word, and the lexemes before it.  A word of one
digit names the stream. -/
def stream (word : List Piece) (stock : Nat) : List Lexeme × Nat :=
  match word with
  | [.char c false] => if c.isDigit then ([], c.toNat - 48) else ([.word word], stock)
  | _ => (flush word, stock)

/-- The lexemes of a script, with the word that is being read. -/
def lexFrom : Mode → List Piece → List Char → Option (List Lexeme)
  | .plain, word, [] => some (flush word)
  | .comment, word, [] => some (flush word)
  | _, _, [] => none
  | .comment, _, '\n' :: rest => (lexFrom .plain [] rest).map (Lexeme.joint .always :: ·)
  | .comment, _, _ :: rest => lexFrom .comment [] rest
  | .single, word, '\'' :: rest => lexFrom .plain word rest
  | .single, word, c :: rest => lexFrom .single (word ++ [.char c true]) rest
  | .double, word, '"' :: rest => lexFrom .plain word rest
  | .double, word, '\\' :: '\n' :: rest => lexFrom .double word rest
  | .double, word, '\\' :: d :: rest =>
    if ['$', '\x60', '"', '\\'].contains d then lexFrom .double (word ++ [.char d true]) rest
    else lexFrom .double (word ++ [.char '\\' true, .char d true]) rest
  | .double, word, '$' :: d :: rest =>
    if namesParameter d then lexFrom .double (word ++ [.parameter d true]) rest
    else lexFrom .double (word ++ [.char '$' true]) (d :: rest)
  | .double, word, c :: rest => lexFrom .double (word ++ [.char c true]) rest
  | .plain, word, '\'' :: rest => lexFrom .single (word ++ [.quotation]) rest
  | .plain, word, '"' :: rest => lexFrom .double (word ++ [.quotation]) rest
  | .plain, word, '\\' :: '\n' :: rest => lexFrom .plain word rest
  | .plain, word, '\\' :: d :: rest => lexFrom .plain (word ++ [.char d true]) rest
  | .plain, word, '$' :: d :: rest =>
    if namesParameter d then lexFrom .plain (word ++ [.parameter d false]) rest
    else lexFrom .plain (word ++ [.char '$' false]) (d :: rest)
  | .plain, word, ';' :: rest =>
    (lexFrom .plain [] rest).map (flush word ++ [.joint .always] ++ ·)
  | .plain, word, '\n' :: rest =>
    (lexFrom .plain [] rest).map (flush word ++ [.joint .always] ++ ·)
  | .plain, word, '&' :: '&' :: rest =>
    (lexFrom .plain [] rest).map (flush word ++ [.joint .onSuccess] ++ ·)
  | .plain, word, '|' :: '|' :: rest =>
    (lexFrom .plain [] rest).map (flush word ++ [.joint .onFailure] ++ ·)
  | .plain, word, '>' :: '&' :: d :: rest =>
    let (before, redirected) := stream word 1
    (lexFrom .plain [] rest).map
      (before ++ [.redirection redirected (.sameAs (d.toNat - 48))] ++ ·)
  | .plain, word, '>' :: rest =>
    let (before, redirected) := stream word 1
    (lexFrom .plain [] rest).map (before ++ [.redirection redirected .write] ++ ·)
  | .plain, word, '<' :: rest =>
    let (before, redirected) := stream word 0
    (lexFrom .plain [] rest).map (before ++ [.redirection redirected .read] ++ ·)
  | .plain, word, ' ' :: rest => (lexFrom .plain [] rest).map (flush word ++ ·)
  | .plain, word, '\t' :: rest => (lexFrom .plain [] rest).map (flush word ++ ·)
  | .plain, [], '#' :: rest => lexFrom .comment [] rest
  | .plain, word, c :: rest => lexFrom .plain (word ++ [.char c false]) rest
termination_by _ _ cs => cs.length

/-- The lexemes of a script, unless a quotation does not end. -/
def lexemes? (script : String) : Option (List Lexeme) := lexFrom .plain [] script.toList

end Script

end MailTemplate
