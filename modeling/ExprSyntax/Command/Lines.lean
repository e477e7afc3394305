/-!
# Lines of input

`lines` cuts bytes into lines: a line feed ends a line and takes one carriage return before it
along. What stands behind the last line feed is a line too unless it is empty, and keeps its
carriage return.
-/

namespace ExprSyntax

namespace Command

def lineFeed : UInt8 := 10

def carriageReturn : UInt8 := 13

/-- A line without the carriage return at its end. -/
def dropReturn (line : List UInt8) : List UInt8 :=
  if line.getLast? = some carriageReturn then line.dropLast else line

theorem length_lt_of_dropWhile {bytes rest : List UInt8} {b : UInt8}
    (h : bytes.dropWhile (· ≠ lineFeed) = b :: rest) : rest.length < bytes.length := by
  have := (List.dropWhile_suffix (l := bytes) (· ≠ lineFeed)).length_le
  rwa [h] at this

/-- The lines of `bytes`, put behind those of `done`. -/
def linesOnto (done : Array (List UInt8)) : List UInt8 → Array (List UInt8)
  | [] => done
  | b :: bs =>
    let line := (b :: bs).takeWhile (· ≠ lineFeed)
    match _h : (b :: bs).dropWhile (· ≠ lineFeed) with
    | [] => done.push line
    | _ :: rest => linesOnto (done.push (dropReturn line)) rest
termination_by bytes => bytes.length
decreasing_by exact length_lt_of_dropWhile (by assumption)

def lines (bytes : List UInt8) : List (List UInt8) :=
  (linesOnto #[] bytes).toList

/-- The text that bytes stand for in UTF-8. -/
def decode? (bytes : List UInt8) : Option String :=
  String.fromUTF8? ⟨bytes.toArray⟩

end Command

end ExprSyntax
