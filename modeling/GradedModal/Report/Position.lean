/-!
This module relates byte offsets of a text with lines and columns.
-/

namespace GradedModal
namespace Report

/--
A line and a column, both counted from one. The column counts characters.
-/
structure Position where
  line : Nat
  column : Nat
  deriving DecidableEq, Repr, Inhabited

def splitBytes : Nat → List Char → List Char × List Char
  | _, [] => ([], [])
  | n, c :: cs =>
    if c.utf8Size ≤ n then
      let (before, after) := splitBytes (n - c.utf8Size) cs
      (c :: before, after)
    else
      ([], c :: cs)

def lastLine (cs : List Char) : List Char :=
  (cs.reverse.takeWhile (· != '\n')).reverse

def firstLine (cs : List Char) : List Char :=
  cs.takeWhile (· != '\n')

/--
The position of a byte offset and the line it lies in. An offset inside a character belongs to the start
of the character, and an offset past the end to the end.
-/
def Position.ofOffset (text : String) (offset : Nat) : Position × String :=
  let (before, after) := splitBytes offset text.toList
  let start := lastLine before
  (⟨before.count '\n' + 1, start.length + 1⟩, String.ofList (start ++ firstLine after))

def bytesOfLines : Nat → List Char → Nat
  | 0, _ => 0
  | _, [] => 0
  | n + 1, c :: cs => c.utf8Size + bytesOfLines (if c = '\n' then n else n + 1) cs

def offsetOf (text : String) (line column : Nat) : Nat :=
  min (bytesOfLines (line - 1) text.toList + (column - 1)) text.utf8ByteSize

end Report
end GradedModal
