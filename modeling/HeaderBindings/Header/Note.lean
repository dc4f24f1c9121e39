import HeaderBindings.Model.Finding
import HeaderBindings.Text.Bytes

/-!
One header's path and text, and what reading it reports line by line. Lines are numbered from one; a
line number of a diagnostic is looked up among the places at which lines start, and the text from
there to the next of them is quoted without line feeds and carriage returns at the end. Turning a
note into a finding is the only step that looks at the header's path and at the text of its lines.
-/

namespace HeaderBindings

structure SourceUnit where
  path : Text
  content : Text
  deriving DecidableEq, Repr

namespace SourceUnit

/-- A declaration that does not come from a file. -/
def inline (content : Text) : SourceUnit := ⟨"<inline>.h".toList, content⟩

def line? (unit : SourceUnit) : Nat → Option Text
  | 0 => none
  | index + 1 =>
    let starts := unit.content.lineStarts
    starts[index]?.map fun start =>
      let stop := starts[index + 1]?.getD unit.content.byteCount
      Text.dropTrailing (fun c => c == '\r' || c == '\n') (unit.content.slice start stop)

end SourceUnit

inductive Note where
  | declared (decl : ClassDecl)
  | rejected (line : Nat) (message : Text)
  | progress (event : Event)
  deriving DecidableEq, Repr

namespace Note

def skippedProtocol (line : Nat) : Note :=
  .progress
    { level := .debug
      message := "skipping protocol body".toList
      fields := [("line".toList, .plain (Text.ofNat line))] }

def entered (name category : Text) (line : Nat) : Note :=
  .progress
    { level := .debug
      message := "entering interface".toList
      fields :=
        [("class".toList, .plain name), ("category".toList, .quoted category),
         ("line".toList, .plain (Text.ofNat line))] }

def closing (decl : ClassDecl) : Note :=
  .progress
    { level := .debug
      message := "closing interface".toList
      fields :=
        [("class".toList, .plain decl.name),
         ("members".toList, .plain (Text.ofNat decl.memberCount))] }

def unclosed (decl : ClassDecl) (line : Nat) : Note :=
  .rejected line ("`@interface ".toList ++ decl.name ++ "` is missing its `@end`".toList)

end Note

namespace SourceUnit

/-- A warning at a line, with that line quoted. -/
def diagnostic (unit : SourceUnit) (line : Nat) (message : Text) : Diagnostic :=
  { Diagnostic.atLine message unit.path line with
    help := (unit.line? line).map fun text => "in `".toList ++ Text.trim text ++ ['`'] }

def finding (unit : SourceUnit) : Note → Finding
  | .declared decl => .declared decl
  | .rejected line message => .warned (unit.diagnostic line message)
  | .progress event => .noted event

end SourceUnit

end HeaderBindings
