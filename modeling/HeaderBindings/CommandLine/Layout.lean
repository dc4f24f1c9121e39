import HeaderBindings.Model.ClassSet
import HeaderBindings.Event

/-!
Models laid out for people to look through: a part on each line, with a comma after it, indented
below what it is a part of.
-/

namespace HeaderBindings

namespace Layout

/-- Lines of a value; what surrounds them goes in front of the first and behind the last. -/
abbrev Lines := List Text

def margin : Text := List.replicate 4 ' '

def labelled (label : Text) : Lines → Lines
  | [] => [label]
  | first :: rest => (label ++ first) :: rest

def withComma : Lines → Lines
  | [] => []
  | [last] => [last ++ [',']]
  | line :: rest => line :: withComma rest

/-- Parts between brackets, which meet if there is no part. -/
def enclosed (opening closing : Text) (parts : List Lines) : Lines :=
  if parts.isEmpty then [opening ++ closing]
  else opening :: parts.flatMap (fun part => (withComma part).map (margin ++ ·)) ++ [closing]

def record (name : Text) (fields : List (Text × Lines)) : Lines :=
  enclosed (name ++ " \x7b".toList) ['\x7d']
    (fields.map fun field => labelled (field.1 ++ ": ".toList) field.2)

def sequence (items : List Lines) : Lines := enclosed ['['] [']'] items

def set (items : List Lines) : Lines := enclosed ['\x7b'] ['\x7d'] items

def mapping (entries : List (Text × Lines)) : Lines :=
  enclosed ['\x7b'] ['\x7d']
    (entries.map fun entry => labelled (Text.quoted entry.1 ++ ": ".toList) entry.2)

def ofText (text : Text) : Lines := [Text.quoted text]

def ofNat (n : Nat) : Lines := [Text.ofNat n]

def ofBool (b : Bool) : Lines := [if b then "true".toList else "false".toList]

def ofOption {α : Type} (layout : α → Lines) : Option α → Lines
  | none => ["None".toList]
  | some a => enclosed "Some(".toList [')'] [layout a]

def ofParameter (param : Parameter) : Lines :=
  record "ParameterModel".toList
    [("name".toList, ofText param.name), ("native_type".toList, ofText param.type),
     ("nullable".toList, ofBool param.nullable), ("doc".toList, ofText param.doc)]

def ofMethod (method : Method) : Lines :=
  record "MethodModel".toList
    [("selector".toList, ofText method.selector),
     ("params".toList, sequence (method.params.map ofParameter)),
     ("return_type".toList, ofText method.returnType),
     ("return_nullable".toList, ofBool method.returnNullable),
     ("is_static".toList, ofBool method.isStatic),
     ("availability".toList, ofOption ofText method.availability),
     ("doc".toList, ofText method.doc), ("return_doc".toList, ofText method.returnDoc)]

def ofProperty (property : Property) : Lines :=
  record "PropertyModel".toList
    [("name".toList, ofText property.name), ("native_type".toList, ofText property.type),
     ("readonly".toList, ofBool property.readonly),
     ("nullable".toList, ofBool property.nullable),
     ("attributes".toList, sequence (property.attributes.map ofText)),
     ("is_class".toList, ofBool property.isClass),
     ("getter".toList, ofOption ofText property.getter),
     ("setter".toList, ofOption ofText property.setter),
     ("availability".toList, ofOption ofText property.availability),
     ("doc".toList, ofText property.doc)]

def ofClass (decl : ClassDecl) : Lines :=
  record "ClassModel".toList
    [("name".toList, ofText decl.name),
     ("superclass".toList, ofOption ofText decl.superclass),
     ("protocols".toList, set (decl.protocols.map ofText)),
     ("properties".toList, sequence (decl.properties.map ofProperty)),
     ("methods".toList, sequence (decl.methods.map ofMethod)),
     ("doc".toList, ofText decl.doc),
     ("availability".toList, ofOption ofText decl.availability)]

def ofDiagnostic (diagnostic : Diagnostic) : Lines :=
  record "Diagnostic".toList
    [("message".toList, ofText diagnostic.message),
     ("path".toList, ofOption ofText diagnostic.path),
     ("line".toList, ofOption ofNat diagnostic.line),
     ("help".toList, ofOption ofText diagnostic.help)]

def ofClassSet (classes : ClassSet) : Lines :=
  record "ClassSet".toList
    [("classes".toList, mapping (classes.classes.map fun decl => (decl.name, ofClass decl))),
     ("diagnostics".toList, sequence (classes.diagnostics.map ofDiagnostic))]

def text (lines : Lines) : Text := lines.flatMap (· ++ ['\n'])

end Layout

end HeaderBindings
