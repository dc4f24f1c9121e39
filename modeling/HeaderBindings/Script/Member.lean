import HeaderBindings.Script.Statement

/-!
The members of a generated class and the lines that they are written as. An overloaded member is
a signature per overload and one implementation, which tests the number of arguments in order.
-/

namespace HeaderBindings

/-- A line at a depth of indentation. -/
structure ScriptLine where
  depth : Nat
  text : Text
  deriving DecidableEq, Repr

namespace ScriptLine

/-- An empty line is not indented. -/
def written (line : ScriptLine) : Text :=
  (if line.text.isEmpty then [] else List.replicate (2 * line.depth) ' ') ++ line.text ++ ['\n']

end ScriptLine

/-- The entries of a documentation block, one per line of the block. -/
abbrev DocBlock := List Text

namespace DocBlock

/-- A text in which no comment ends. -/
def escape : Text → Text
  | '*' :: '/' :: text => '*' :: '\\' :: '/' :: escape text
  | c :: text => c :: escape text
  | [] => []

def lines (depth : Nat) (block : DocBlock) : List ScriptLine :=
  if block.isEmpty then []
  else
    [⟨depth, "/**".toList⟩] ++ block.map (fun entry => ⟨depth, " * ".toList ++ escape entry⟩)
      ++ [⟨depth, " */".toList⟩]

end DocBlock

inductive ReturnType where
  | script (type : ScriptType)
  | instanceOf (className : Text)
  deriving DecidableEq, Repr

namespace ReturnType

def text : ReturnType → Text
  | script type => type.text
  | instanceOf className => className

end ReturnType

structure ScriptParam where
  name : Text
  type : ScriptType
  deriving DecidableEq, Repr

namespace ScriptParam

def text (param : ScriptParam) : Text := param.name ++ ": ".toList ++ param.type.text

end ScriptParam

def staticPart (isStatic : Bool) : Text := if isStatic then "static ".toList else []

structure Signature where
  isStatic : Bool
  name : Text
  params : List ScriptParam
  returns : ReturnType
  deriving DecidableEq, Repr

namespace Signature

def text (signature : Signature) : Text :=
  staticPart signature.isStatic ++ signature.name ++ ['(']
    ++ Text.join ", ".toList (signature.params.map ScriptParam.text) ++ "): ".toList
    ++ signature.returns.text

end Signature

/-- One way to call an overloaded member. -/
structure Overload where
  doc : DocBlock
  signature : Signature
  body : Statement
  deriving DecidableEq, Repr

namespace Overload

def arity (overload : Overload) : Nat := overload.signature.params.length

def signatureLines (overload : Overload) : List ScriptLine :=
  overload.doc.lines 1 ++ [⟨1, overload.signature.text ++ [';']⟩]

/-- The branch for the overload's number of arguments; it always leaves the member. -/
def branchLines (overload : Overload) : List ScriptLine :=
  [⟨2, "if (args.length === ".toList ++ Text.ofNat overload.arity ++ ") \x7b".toList⟩,
   ⟨3, overload.body.text⟩]
    ++ (if overload.body.leaves then [] else [⟨3, "return;".toList⟩])
    ++ [⟨2, ['\x7d']⟩]

end Overload

/-- A parameter of an implementation, with the types that overloads have in its place. -/
structure UnionParam where
  name : Text
  types : List Text
  deriving DecidableEq, Repr

namespace UnionParam

def text (param : UnionParam) : Text :=
  param.name ++ "?: ".toList ++ Text.join " | ".toList param.types

end UnionParam

structure Dispatch where
  isStatic : Bool
  name : Text
  base : Text
  params : List UnionParam
  overloads : List Overload
  deriving DecidableEq, Repr

namespace Dispatch

/-- The return types of the overloads, each once. -/
def returns (dispatch : Dispatch) : List Text :=
  adopt [] (dispatch.overloads.map (·.signature.returns.text))

def head (dispatch : Dispatch) : Text :=
  staticPart dispatch.isStatic ++ dispatch.name ++ ['(']
    ++ Text.join ", ".toList
      (dispatch.params.map UnionParam.text ++ ["...rest: unknown[]".toList])
    ++ "): ".toList ++ Text.join " | ".toList dispatch.returns

/-- The statement that gathers the arguments that the member was called with. -/
def gathering (dispatch : Dispatch) : Text :=
  "const args = [".toList
    ++ Text.join ", ".toList (dispatch.params.map (·.name) ++ ["...rest".toList])
    ++ "].slice(0, arguments.length);".toList

def failure (dispatch : Dispatch) : Text :=
  "throw new Error(`UnresolvedOverload: no overload of ".toList ++ dispatch.base
    ++ " takes $\x7bargs.length\x7d argument(s)`);".toList

def implementationLines (dispatch : Dispatch) : List ScriptLine :=
  [⟨1, dispatch.head ++ " \x7b".toList⟩, ⟨2, dispatch.gathering⟩]
    ++ dispatch.overloads.flatMap Overload.branchLines
    ++ [⟨2, dispatch.failure⟩, ⟨1, ['\x7d']⟩]

def lines (dispatch : Dispatch) : List ScriptLine :=
  dispatch.overloads.flatMap Overload.signatureLines ++ dispatch.implementationLines

end Dispatch

inductive ScriptMember where
  | getter (doc : DocBlock) (isStatic : Bool) (name : Text) (type : ScriptType) (call : Call)
  | setter (doc : DocBlock) (isStatic : Bool) (name : Text) (type : ScriptType) (call : Call)
  | function (doc : DocBlock) (signature : Signature) (body : Statement)
  | overloaded (dispatch : Dispatch)
  | incomplete (isStatic : Bool) (name : Text)
  deriving DecidableEq, Repr

namespace ScriptMember

/-- How the mark of a member starts that cannot be generated. -/
def marker : Text := "// @veneer-incomplete".toList

def block (doc : DocBlock) (head : Text) (body : Statement) : List ScriptLine :=
  doc.lines 1 ++ [⟨1, head ++ " \x7b".toList⟩, ⟨2, body.text⟩, ⟨1, ['\x7d']⟩]

def lines : ScriptMember → List ScriptLine
  | getter doc isStatic name type call =>
    block doc (staticPart isStatic ++ "get ".toList ++ name ++ "(): ".toList ++ type.text)
      (.giveBack call type)
  | setter doc isStatic name type call =>
    block doc
      (staticPart isStatic ++ "set ".toList ++ name ++ "(value: ".toList ++ type.text ++ [')'])
      (.perform call)
  | function doc signature body => block doc signature.text body
  | overloaded dispatch => dispatch.lines
  | incomplete isStatic name => [⟨1, marker ++ [' '] ++ staticPart isStatic ++ name⟩]

/-- Members with an empty line between any two. -/
def allLines : List ScriptMember → List ScriptLine
  | [] => []
  | [member] => member.lines
  | member :: next :: later => member.lines ++ [⟨1, []⟩] ++ allLines (next :: later)

end ScriptMember

end HeaderBindings
