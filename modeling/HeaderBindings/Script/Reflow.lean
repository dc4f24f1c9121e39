import HeaderBindings.Script.Item
import HeaderBindings.Script.Module

/-!
Putting a module's text in order. The signatures of a member, with their documentation, move above
its first implementation; marks become members that throw; empty lines that are left over go.
-/

namespace HeaderBindings

namespace Item

def implements (key : MemberKey) : Item → Bool
  | implementation own _ => own == key
  | _ => false

/-- The lines of an item that is a signature of a member. -/
def signatureLines (key : MemberKey) : Item → List Text
  | signature own lines => if own = key then lines else []
  | _ => []

def signaturesOf (key : MemberKey) (items : List Item) : List Text :=
  items.flatMap (signatureLines key)

/-- The member that stands in for a declaration that could not be bound. -/
def stub (key : MemberKey) : List Text :=
  ["  ".toList ++ (if key.isStatic then "static ".toList else []) ++ key.name
      ++ "(...args: unknown[]): unknown \x7b".toList,
   "    throw new Error(\"".toList ++ key.name ++ ": declaration could not be bound\");".toList,
   "  \x7d".toList]

/-- The lines of items, given all items and the keys whose first implementation is written. -/
def arrangeAfter (all : List Item) (written : List MemberKey) : List Item → List Text
  | [] => []
  | plain text :: rest => text :: arrangeAfter all written rest
  | signature key lines :: rest =>
    (if all.any (implements key) then [] else lines) ++ arrangeAfter all written rest
  | implementation key lines :: rest =>
    (if written.contains key then [] else signaturesOf key all) ++ lines
      ++ arrangeAfter all (key :: written) rest
  | marker key doc :: rest => doc ++ stub key ++ arrangeAfter all written rest

def arrange (items : List Item) : List Text := arrangeAfter items [] items

end Item

/-- Whether an empty line is dropped after a kept one: it follows an empty line or an opening
brace, or the line after it closes the class. -/
def droppedBlank (kept? next? : Option Text) : Bool :=
  (match kept? with
    | some kept => (Text.trimEnd kept).isEmpty || (Text.trimEnd kept).getLast? == some '\x7b'
    | none => false)
    || next? == some ['\x7d']

def tidyAfter (kept? : Option Text) : List Text → List Text
  | [] => []
  | line :: rest =>
    if (Text.trim line).isEmpty && droppedBlank kept? rest.head? then tidyAfter kept? rest
    else line :: tidyAfter (some line) rest

def tidy (lines : List Text) : List Text := tidyAfter none lines

/-- A module's text in order; a line feed at its end stays. -/
def reflow (source : Text) : Text :=
  Text.join ['\n'] (tidy (Item.arrange (Item.ofLines source.lines)))
    ++ (if source.getLast? = some '\n' then ['\n'] else [])

def markerEvent? : Item → Option Event
  | .marker key _ => some
      { level := .debug
        message := "filling incomplete marker".toList
        fields := [("member".toList, .plain key.name)] }
  | _ => none

/-- What putting a module in order reports. -/
def reflowEvents (source : Text) : List Event :=
  (Item.ofLines source.lines).filterMap markerEvent?

namespace GeneratedFile

def reflowed (file : GeneratedFile) : GeneratedFile := { file with source := reflow file.source }

end GeneratedFile

/-- The modules of a class set, in its order. -/
def generatedFiles (bridge : Text) (classes : ClassSet) : List GeneratedFile :=
  classes.classes.map fun decl => (GeneratedFile.ofClass bridge classes decl).reflowed

end HeaderBindings
