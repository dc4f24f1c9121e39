import HeaderBindings.Text.Basic

/-!
Types of generated code and the mapping of native types to them. Collections map with their
arguments; a type that no table knows is an opaque object that keeps its native name.
-/

namespace HeaderBindings

inductive ScriptType where
  | void
  | boolean
  | number
  | string
  | array (element : ScriptType)
  | map (key value : ScriptType)
  | set (element : ScriptType)
  | nullable (inner : ScriptType)
  | opaqueObject (name : Text)
  deriving DecidableEq, Repr

namespace ScriptType

/-- The mapping of a type argument that is not given. -/
def anyObject : ScriptType := opaqueObject "id".toList

def isVoid : ScriptType → Bool
  | void => true
  | _ => false

def isNullable : ScriptType → Bool
  | nullable _ => true
  | _ => false

/-- The type with null added once; `void` never has it. -/
def orNull : ScriptType → ScriptType
  | void => void
  | nullable inner => nullable inner
  | type => nullable type

def orNullIf (wanted : Bool) (type : ScriptType) : ScriptType :=
  if wanted then type.orNull else type

def text : ScriptType → Text
  | void => "void".toList
  | boolean => "boolean".toList
  | number => "number".toList
  | string => "string".toList
  | array element =>
    if element.isNullable then ['('] ++ element.text ++ [')', '[', ']']
    else element.text ++ ['[', ']']
  | map key value => "Map<".toList ++ key.text ++ ", ".toList ++ value.text ++ ['>']
  | set element => "Set<".toList ++ element.text ++ ['>']
  | nullable inner => inner.text ++ " | null".toList
  | opaqueObject _ => "NativeObject".toList

/-- What a character adds to the depth of angles and parentheses. -/
def nesting (c : Char) : Int :=
  if c = '<' ∨ c = '(' then 1 else if c = '>' ∨ c = ')' then -1 else 0

/-- The first piece and the later pieces of a text cut at the commas outside all brackets. -/
def cutArguments (depth : Int) : Text → Text × List Text
  | [] => ([], [])
  | c :: text =>
    let tail := cutArguments (depth + nesting c) text
    if c = ',' && depth == 0 then ([], tail.1 :: tail.2) else (c :: tail.1, tail.2)

/-- The type arguments in a text, trimmed, without empty ones. -/
def arguments (text : Text) : List Text :=
  let cut := cutArguments 0 text
  ((cut.1 :: cut.2).map Text.trim).filter (!·.isEmpty)

inductive Family where
  | void | boolean | number | string | array | map | set | other
  deriving DecidableEq, Repr

namespace Family

def booleans : List Text := ["BOOL".toList, "bool".toList, "Boolean".toList, "_Bool".toList]

def numbers : List Text :=
  ["NSInteger".toList, "NSUInteger".toList, "CGFloat".toList, "NSTimeInterval".toList,
   "NSNumber".toList, "CFIndex".toList, "CFTimeInterval".toList, "size_t".toList,
   "ssize_t".toList, "ptrdiff_t".toList, "intptr_t".toList, "uintptr_t".toList,
   "int8_t".toList, "int16_t".toList, "int32_t".toList, "int64_t".toList,
   "uint8_t".toList, "uint16_t".toList, "uint32_t".toList, "uint64_t".toList,
   "unichar".toList, "UInt8".toList, "UInt16".toList, "UInt32".toList, "UInt64".toList,
   "SInt8".toList, "SInt16".toList, "SInt32".toList, "SInt64".toList, "Float32".toList,
   "Float64".toList]

/-- The words that make up the names of the basic number types. -/
def numberWords : List Text :=
  ["char".toList, "short".toList, "int".toList, "long".toList, "float".toList,
   "double".toList, "signed".toList, "unsigned".toList]

def strings : List Text := ["NSString".toList, "NSMutableString".toList, "char *".toList]

def arrays : List Text := ["NSArray".toList, "NSMutableArray".toList]

def maps : List Text := ["NSDictionary".toList, "NSMutableDictionary".toList]

def sets : List Text :=
  ["NSSet".toList, "NSMutableSet".toList, "NSOrderedSet".toList, "NSMutableOrderedSet".toList]

def ofBase (base : Text) : Family :=
  if base = "void".toList then void
  else if booleans.contains base then boolean
  else if numbers.contains base || base.words.all (numberWords.contains ·) then number
  else if strings.contains base then string
  else if arrays.contains base then array
  else if maps.contains base then map
  else if sets.contains base then set
  else other

end Family

/-- The base of a type and the text between its angles. -/
def splitAngles (native : Text) : Text × Option Text :=
  match native.dropWhile (· != '<'), native.getLast? with
  | _ :: inner, some '>' => (Text.trim (native.takeWhile (· != '<')), some inner.dropLast)
  | _, _ => (native, none)

/-- The type arguments of a native type. -/
def argumentsOf (native : Text) : List Text :=
  match (splitAngles native).2 with
  | some inner => arguments inner
  | none => []

/-- The type of a family with given arguments. -/
def ofFamily (native : Text) (args : List ScriptType) : Family → ScriptType
  | .void => void
  | .boolean => boolean
  | .number => number
  | .string => string
  | .array => array (args.head?.getD anyObject)
  | .map => map (args.head?.getD anyObject) (args.tail.head?.getD anyObject)
  | .set => set (args.head?.getD anyObject)
  | .other => opaqueObject native

theorem length_cutArguments (depth : Int) (text : Text) :
    (cutArguments depth text).1.length ≤ text.length ∧
      ∀ piece ∈ (cutArguments depth text).2, piece.length ≤ text.length := by
  induction text generalizing depth with
  | nil => simp [cutArguments]
  | cons c text ih =>
    have tail := ih (depth + nesting c)
    simp only [cutArguments]
    split
    · refine ⟨by simp, fun piece member => ?_⟩
      rcases List.mem_cons.mp member with same | later
      · subst same; simp; omega
      · have := tail.2 piece later; simp; omega
    · refine ⟨by simpa using tail.1, fun piece member => ?_⟩
      have := tail.2 piece member
      simp
      omega

theorem length_argument (text argument : Text) (member : argument ∈ arguments text) :
    argument.length ≤ text.length := by
  simp only [arguments, List.mem_filter, List.mem_map] at member
  obtain ⟨⟨piece, member, rfl⟩, _⟩ := member
  have pieces := length_cutArguments 0 text
  have trimmed := Text.length_trim piece
  rcases List.mem_cons.mp member with same | later
  · subst same; omega
  · have := pieces.2 piece later; omega

theorem length_splitAngles (native inner : Text) (found : (splitAngles native).2 = some inner) :
    inner.length < native.length := by
  unfold splitAngles at found
  split at found
  · next here _ =>
    cases found
    have shorter := (List.dropWhile_suffix (· != '<') (l := native)).length_le
    rw [here] at shorter
    simp at shorter ⊢
    omega
  · cases found

theorem length_argumentOf (native argument : Text) (member : argument ∈ argumentsOf native) :
    argument.length < native.length := by
  unfold argumentsOf at member
  split at member
  · next inner found =>
    have := length_argument inner argument member
    have := length_splitAngles native inner found
    omega
  · cases member

/-- The type that a native type in canonical form maps to. Blocks and functions are opaque. -/
def ofNative (native : Text) : ScriptType :=
  let name := Text.trim native
  if name.isEmpty then anyObject
  else if Family.strings.contains name then string
  else if name.contains '^' || name.contains '(' then opaqueObject name
  else
    ofFamily name ((argumentsOf name).attach.map fun argument => ofNative argument.val)
      (Family.ofBase (splitAngles name).1)
termination_by native.length
decreasing_by
  have := length_argumentOf (Text.trim native) argument.val argument.property
  have := Text.length_trim native
  omega

/-- The type of a value that may be null if wanted. -/
def ofNativeOrNull (native : Text) (wanted : Bool) : ScriptType := (ofNative native).orNullIf wanted

end ScriptType

end HeaderBindings
