import FreeForm.Scanner
import FreeForm.Token

namespace FreeForm

/-!
# Tokens divided by a continuation

A token may be divided between two lines. Its halves are joined when nothing but the continuation
stands between them and their joined text scans as one lexeme again.
-/

namespace Continuation

/-- The continuation mark as liminal text. -/
def mark : Text := [Lexeme.continuationMark]

/-- Whether the text between two halves touches both: it starts with the continuation mark, and the
second half stands behind a mark of its own or in the first column. -/
def isAdjacent (liminals : List Text) (marked : Bool) : Bool :=
  liminals.head? == some mark && (marked || liminals.getLast?.any (·.getLast? == some '\n'))

/-- The spelling of a divided token. -/
def dividedSpelling (previous : Token) (liminals : List Text) (marked : Bool)
    (fragment : Lexeme) : Text :=
  previous.spelling ++ liminals.flatten ++ (if marked then mark else []) ++ fragment.text

/-- Joins the last token of a continued line and the first lexeme of the next. The liminal text
between them is given without the mark that the next line may start with. -/
def rejoin (previous : Token) (liminals : List Text) (marked : Bool) (fragment : Lexeme) :
    Except LexError (Option Token) :=
  if previous.isExpanded || !fragment.isSemantic || !isAdjacent liminals marked then .ok none
  else
    match scanLine none (previous.value ++ fragment.text ++ ['\n']) with
    | .error e => .error e
    | .ok scanned =>
        match scanned.lexemes with
        | [l, _] =>
            .ok (some { Token.ofLexeme l with
              head := previous.head
              split := some (dividedSpelling previous liminals marked fragment) })
        | _ => .ok none

end Continuation

end FreeForm
