import GradedModal.Files.Path
import GradedModal.Report.Position

/-!
This module collects error messages and renders them against the texts they point into.
-/

namespace GradedModal
namespace Report

inductive Source where
  | file (path : String)
  | interactive (label : String)
  deriving DecidableEq, Repr, Inhabited

def Source.label : Source → String
  | .file path => path
  | .interactive label => label

def Source.same : Source → Source → Bool
  | .file path, .file path' => Path.same path path'
  | .interactive label, .interactive label' => label = label'
  | _, _ => false

structure Location where
  source : Source
  offset : Option Nat
  deriving DecidableEq, Repr, Inhabited

structure Message where
  content : String
  addendum : Option String
  deriving DecidableEq, Repr, Inhabited

def heading (path : String) (position : Option Position) (content : String) : String :=
  let place :=
    match position with
    | some p => toString p.line ++ ":" ++ toString p.column ++ ":"
    | none => ""
  path ++ ":" ++ place ++ " error: " ++ content

namespace Message

def append (m : Message) (text : String) : String :=
  match m.addendum with
  | some addendum => text ++ "\n" ++ addendum
  | none => text

def excerpt (m : Message) (path : String) (position : Position) (line : String) : String :=
  let number := toString position.line
  let margin := String.ofList (List.replicate number.length ' ')
  let mark := String.ofList (List.replicate (position.column - 1) ' ') ++ "^"
  m.append (heading path (some position) m.content
    ++ "\n" ++ margin ++ " |\n" ++ number ++ " | " ++ line ++ "\n" ++ margin ++ " | " ++ mark)

def render (m : Message) : String :=
  m.append ("error: " ++ m.content)

/--
A message at a location whose text may be known. Without the text, the offset counts as a column of the
first line, in words of 64 bits.
-/
def renderAt (m : Message) (location : Location) (text : Option String) : String :=
  let path := location.source.label
  match location.offset, text with
  | some offset, some text =>
    let (position, line) := Position.ofOffset text offset
    m.excerpt path position line
  | some offset, none => m.append (heading path (some ⟨1, (offset + 1) % Nat.pow 2 64⟩) m.content)
  | none, _ => m.append (heading path none m.content)

end Message

structure Diagnostic where
  items : List Message
  located : List (Location × Message)
  deriving DecidableEq, Repr, Inhabited

namespace Diagnostic

def empty : Diagnostic :=
  ⟨[], []⟩

def isEmpty (d : Diagnostic) : Bool :=
  d.items.isEmpty && d.located.isEmpty

def size (d : Diagnostic) : Nat :=
  d.items.length + d.located.length

/--
Whether a location comes before another one or at the same offset. A location without an offset comes
first.
-/
def notAfter : Option Nat → Option Nat → Bool
  | none, _ => true
  | some _, none => false
  | some a, some b => a ≤ b

def insert (location : Location) (m : Message) : List (Location × Message) → List (Location × Message)
  | [] => [(location, m)]
  | item :: items =>
    if notAfter item.1.offset location.offset then
      item :: insert location m items
    else
      (location, m) :: item :: items

def add (d : Diagnostic) (location : Option Location) (m : Message) : Diagnostic :=
  match location with
  | none => { d with items := d.items ++ [m] }
  | some location => { d with located := insert location m d.located }

section

variable {m : Type → Type} [Monad m] (contents : Source → m (Option String))

/--
Render located messages. A text is asked for if none is cached for its source.
-/
def renderLocated (cache : List (Source × Option String)) : List (Location × Message) → m (List String)
  | [] => return []
  | (location, message) :: items =>
    match cache.find? (·.1.same location.source) with
    | some (_, text) => do
      return message.renderAt location text :: (← renderLocated cache items)
    | none => do
      let text ← contents location.source
      return message.renderAt location text :: (← renderLocated (cache ++ [(location.source, text)]) items)

def renderWith (d : Diagnostic) : m (List String) := do
  return d.items.map Message.render ++ (← renderLocated contents [] d.located)

end

end Diagnostic
end Report
end GradedModal
