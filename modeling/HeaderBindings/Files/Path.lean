import HeaderBindings.Text.Bytes

/-!
Paths as text: steps between slashes, joining, the paths above a path, and the extension that
makes a file a header. Names are ordered by the bytes of their encoding.
-/

namespace HeaderBindings

namespace Path

def isSlash (c : Char) : Bool := c == '/'

/-- The parts between slashes, without empty ones. -/
def steps (path : Text) : List Text := (Text.piecesWhere isSlash path).filter (!·.isEmpty)

/-- The path of a name below a path. -/
def join (path name : Text) : Text :=
  if path.isEmpty || path.getLast? == some '/' then path ++ name else path ++ '/' :: name

def isHere (step : Text) : Bool := step == ['.']

/-- The steps that count when a path is taken apart: those that stay in place count only at the
start of a relative path. -/
def parts (path : Text) : List Text :=
  match steps path with
  | [] => []
  | first :: rest =>
    (if isHere first && path.head? == some '/' then [] else [first]) ++ rest.filter (!isHere ·)

def ofParts (isAbsolute : Bool) (parts : List Text) : Text :=
  (if isAbsolute then ['/'] else []) ++ Text.join ['/'] parts

/-- The paths above a path, from the nearest to the outermost. -/
def above (path : Text) : List Text :=
  let isAbsolute := path.head? == some '/'
  let parts := parts path
  if parts.isEmpty then []
  else (List.range parts.length).reverse.map fun count => ofParts isAbsolute (parts.take count)

/-- Whether a file of this name is a header: the name has an extension `h` and more than it. -/
def isHeaderName (name : Text) : Bool :=
  match name.reverse with
  | 'h' :: '.' :: _ :: _ => true
  | _ => false

/-- The longest path and the longest name that can be used, in bytes. -/
def longestPath : Nat := 4095

def longestName : Nat := 255

/-- Whether the file system takes a path at all. -/
def usable (path : Text) : Bool :=
  !path.isEmpty && path.byteCount ≤ longestPath && !path.contains '\x00'
    && (steps path).all (·.byteCount ≤ longestName)

/-- The order of names: by the codes of their characters, which is that of their bytes. -/
def nameLe : Text → Text → Bool
  | [], _ => true
  | _ :: _, [] => false
  | c :: name, d :: other =>
    if c.toNat < d.toNat then true else if d.toNat < c.toNat then false else nameLe name other

end Path

end HeaderBindings
