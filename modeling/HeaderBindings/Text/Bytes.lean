import HeaderBindings.Text.Basic

/-!
Places in a text, counted in the bytes of its UTF-8 form: the part of a text between two places, and
the places at which its lines start.
-/

namespace HeaderBindings

namespace Text

def byteCount : Text → Nat
  | [] => 0
  | c :: text => c.utf8Size + byteCount text

def dropBytes : Nat → Text → Text
  | 0, text => text
  | _ + 1, [] => []
  | count + 1, c :: text => dropBytes (count + 1 - c.utf8Size) text

def takeBytes : Nat → Text → Text
  | 0, _ => []
  | _ + 1, [] => []
  | count + 1, c :: text => c :: takeBytes (count + 1 - c.utf8Size) text

/-- The part of a text from one place to another one. -/
def slice (text : Text) (start stop : Nat) : Text := takeBytes (stop - start) (dropBytes start text)

/-- The places behind the line feeds of a text that stands at a place. -/
def feedEnds (place : Nat) : Text → List Nat
  | [] => []
  | c :: text =>
    let behind := place + c.utf8Size
    if c = '\n' then behind :: feedEnds behind text else feedEnds behind text

/-- The places at which lines start: the front of the text, and behind each line feed. -/
def lineStarts (text : Text) : List Nat := 0 :: feedEnds 0 text

end Text

end HeaderBindings
