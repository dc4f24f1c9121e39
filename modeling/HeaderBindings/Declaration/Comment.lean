import HeaderBindings.Model.Member

/-!
Reading a documentation comment. Delimiters and leading stars are stripped line by line; tags that
start a word open a section, and text belongs to the section that is open. Words are joined by
single blanks, so neither the layout nor the indentation of a comment matters.
-/

namespace HeaderBindings

namespace DocComment

inductive Section where
  | description
  | param (name : Text)
  | returns
  | ignored
  deriving DecidableEq, Repr

def openings : List Text :=
  ["/**".toList, "/*!".toList, "/*".toList, "///".toList, "//!".toList, "//".toList]

/-- A line less its comment delimiters and leading stars. -/
def cleanLine (line : Text) : Text :=
  let line := Text.trim line
  let body := Text.trim ((openings.findSome? fun opening => Text.after? opening line).getD line)
  let body := match body.reverse with
    | '/' :: '*' :: rest => rest.reverse
    | _ => body
  Text.trim ((Text.trim body).dropWhile (· == '*'))

/-- The commands that a backslash starts; any other backslash is prose. -/
def commands : List Text :=
  ["param".toList, "return".toList, "returns".toList, "result".toList, "brief".toList,
   "abstract".toList, "discussion".toList, "details".toList, "see".toList, "sa".toList,
   "note".toList, "warning".toList, "deprecated".toList, "since".toList, "throws".toList,
   "code".toList, "endcode".toList, "remark".toList]

def isTag (c : Char) (after : Text) : Bool :=
  c == '@' || (c == '\\' && commands.contains (after.takeWhile Char.isAlphanum))

/-- The text before the first tag, and the text from each tag's name on. -/
def cutTags (afterBlank : Bool) : Text → Text × List Text
  | [] => ([], [])
  | c :: text =>
    let tail := cutTags (isBlank c) text
    if afterBlank && isTag c text then ([], tail.1 :: tail.2) else (c :: tail.1, tail.2)

/-- More words after a text, with single blanks between. -/
def joinWords (text more : Text) : Text :=
  more.words.foldl (fun text word => if text.isEmpty then word else text ++ ' ' :: word) text

/-- A parameter's text with more words; one not yet named comes last. -/
def appendParam (name more : Text) : List (Text × Text) → List (Text × Text)
  | [] => [(name, joinWords [] more)]
  | entry :: later =>
    if entry.1 = name then (name, joinWords entry.2 more) :: later
    else entry :: appendParam name more later

def append (doc : DocComment) (more : Text) : Section → DocComment
  | .description => { doc with description := joinWords doc.description more }
  | .returns => { doc with returns := joinWords doc.returns more }
  | .param name => { doc with params := appendParam name more doc.params }
  | .ignored => doc

/-- The section that a tag opens and the text that goes into it. -/
def openSection (tagged : Text) : Section × Text :=
  let (tag, rest) := tagged.splitWord
  if tag = "param".toList then
    let (word, text) := rest.splitWord
    let name := word.dropTrailing (· == ':')
    (if name.isEmpty then .ignored else .param name, text)
  else if tag = "return".toList || tag = "returns".toList || tag = "result".toList then
    (.returns, rest)
  else if tag = "brief".toList || tag = "abstract".toList || tag = "discussion".toList then
    (.description, rest)
  else (.ignored, rest)

def readTag (state : DocComment × Section) (tagged : Text) : DocComment × Section :=
  let (part, text) := openSection tagged
  (state.1.append text part, part)

def readLine (state : DocComment × Section) (line : Text) : DocComment × Section :=
  let cut := cutTags true line
  cut.2.foldl readTag (state.1.append cut.1 state.2, state.2)

def parse (block : Text) : DocComment :=
  let lines := (block.lines.map cleanLine).filter (!·.isEmpty)
  (lines.foldl readLine ({}, .description)).1

end DocComment

end HeaderBindings
