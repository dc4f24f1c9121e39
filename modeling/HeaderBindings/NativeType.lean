import HeaderBindings.Token.Lexer
import HeaderBindings.Token.Render

/-!
A native type in canonical form: its tokens without nullability markers, qualifiers and pointer
stars, written with conventional spacing. The star of `char *` stays, so that a string keeps
apart from a character. Markers count only where they stand outside all brackets or right after a
caret.
-/

namespace HeaderBindings

structure NativeType where
  name : Text
  nullable : Bool
  nonnull : Bool
  pointer : Bool
  deriving DecidableEq, Repr

namespace NativeType

def nullableMarkers : List Text :=
  ["nullable".toList, "_Nullable".toList, "__nullable".toList, "null_resettable".toList]

def nonnullMarkers : List Text :=
  ["nonnull".toList, "_Nonnull".toList, "__nonnull".toList]

def qualifiers : List Text :=
  ["null_unspecified".toList, "_Null_unspecified".toList, "__null_unspecified".toList,
   "_Nullable_result".toList, "const".toList, "volatile".toList, "__kindof".toList,
   "__strong".toList, "__weak".toList, "__autoreleasing".toList,
   "__unsafe_unretained".toList, "__covariant".toList, "__contravariant".toList,
   "in".toList, "out".toList, "inout".toList, "oneway".toList, "bycopy".toList,
   "byref".toList, "IBOutlet".toList, "IBInspectable".toList]

/-- A token of a type with its surroundings: whether it stands outside all parentheses, and
whether a marker there speaks of the whole type. -/
structure Placed where
  token : Token
  outsideParens : Bool
  outer : Bool
  deriving DecidableEq, Repr

def parens : Token → Int
  | .leftParen => 1
  | .rightParen => -1
  | _ => 0

def angles : Token → Int
  | .less => 1
  | .greater => -1
  | _ => 0

/-- The tokens of a type in their places, given the depths and the token before them. -/
def place (parenDepth angleDepth : Int) (before? : Option Token) : List Token → List Placed
  | [] => []
  | token :: tokens =>
    let inParens := parenDepth + parens token
    let inAngles := angleDepth + angles token
    let outer := (inParens == 0 && inAngles == 0) || before? == some Token.caret
    ⟨token, inParens == 0, outer⟩ :: place inParens inAngles (some token) tokens

def isMarked (markers : List Text) (placed : Placed) : Bool :=
  placed.outer && placed.token.name?.any (markers.contains ·)

def isPointerStar (placed : Placed) : Bool := placed.token == .star && placed.outsideParens

def isDropped (name : Text) : Bool :=
  nullableMarkers.contains name || nonnullMarkers.contains name || qualifiers.contains name

/-- The tokens that stay, given the last one that did. -/
def keep (last? : Option Token) : List Placed → List Token
  | [] => []
  | placed :: rest =>
    if placed.token.name?.any isDropped then keep last? rest
    else if isPointerStar placed && last? != some (.identifier "char".toList) then keep last? rest
    else placed.token :: keep (some placed.token) rest

/-- The canonical form of a type given as tokens; a type without a name is `id`. -/
def ofTokens (tokens : List Token) : NativeType :=
  let placed := place 0 0 none tokens
  let name := render (keep none placed)
  { name := if name.isEmpty then "id".toList else name
    nullable := placed.any (isMarked nullableMarkers)
    nonnull := placed.any (isMarked nonnullMarkers)
    pointer := placed.any isPointerStar }

def ofText (text : Text) : NativeType := ofTokens (lex text)

/-- The type of what is declared without one. -/
def untyped : NativeType := ⟨"id".toList, false, false, false⟩

/-- Whether values are objects that may be null unless something rules it out. -/
def isObject (type : NativeType) : Bool :=
  type.pointer || type.name == "id".toList || Text.startsWith "id<".toList type.name

end NativeType

end HeaderBindings
