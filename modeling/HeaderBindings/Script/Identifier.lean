import HeaderBindings.Text.Basic

/-!
Identifiers of generated code. A reserved word gets an underscore; a name made from a longer one
starts in lower case; a name that is taken gets the first free number behind an underscore.
-/

namespace HeaderBindings

namespace Identifier

def reserved : List Text :=
  ["arguments".toList, "break".toList, "case".toList, "catch".toList, "class".toList,
   "const".toList, "continue".toList, "debugger".toList, "default".toList, "delete".toList,
   "do".toList, "else".toList, "enum".toList, "eval".toList, "export".toList,
   "extends".toList, "false".toList, "finally".toList, "for".toList, "function".toList,
   "if".toList, "implements".toList, "import".toList, "in".toList, "instanceof".toList,
   "interface".toList, "let".toList, "new".toList, "null".toList, "package".toList,
   "private".toList, "protected".toList, "public".toList, "return".toList, "static".toList,
   "super".toList, "switch".toList, "this".toList, "throw".toList, "true".toList,
   "try".toList, "typeof".toList, "var".toList, "void".toList, "while".toList,
   "with".toList, "yield".toList]

def sanitize (name : Text) : Text := if reserved.contains name then name ++ ['_'] else name

/-- The number of capitals to lower: the whole leading run, or all but its last where a lower-case
letter follows a longer run, since that capital starts the next word. -/
def capitalsToLower (name : Text) : Nat :=
  let run := (name.takeWhile Char.isUpper).length
  if run > 1 && (name.drop run).head?.any Char.isLower then run - 1 else run

def lowerLeadingCapitals (name : Text) : Text :=
  let count := capitalsToLower name
  (name.take count).map Char.toLower ++ name.drop count

def numbered (base : Text) (n : Nat) : Text := base ++ '_' :: Text.ofNat n

/-- The name itself or its first numbered form that is not in use. -/
def unused (inUse : List Text) (base : Text) : Text :=
  if inUse.contains base then
    (((List.range' 1 (inUse.length + 1)).map (numbered base)).find? (!inUse.contains ·)).getD base
  else base

/-- A name for each wish, different from one another and from those in use. -/
def distinct (inUse : List Text) : List Text → List Text
  | [] => []
  | base :: bases =>
    let name := unused inUse base
    name :: distinct (inUse ++ [name]) bases

end Identifier

end HeaderBindings
