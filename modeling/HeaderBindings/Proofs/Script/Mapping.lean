import HeaderBindings.Proofs.Script.Brackets
import HeaderBindings.Proofs.Text.Words

/-!
The mapping of native types and its table. The table lists base names under families; a type that it lists
as a collection maps to the collection of its mapped arguments, and a type that it does not list to an
opaque object of its name. The mapping follows the table unless a block stands among the arguments of a
collection, or there is no base name at all.
-/

namespace HeaderBindings

namespace ScriptType

namespace Family

/-- Whether the table lists a base name under a family. The basic number types are named by number words,
one or more. -/
def Lists : Family → Text → Prop
  | void, base => base = "void".toList
  | boolean, base => base ∈ booleans
  | number, base =>
    base ∈ numbers ∨ (Text.words base ≠ [] ∧ ∀ word ∈ Text.words base, word ∈ numberWords)
  | string, base => base ∈ strings
  | array, base => base ∈ arrays
  | map, base => base ∈ maps
  | set, base => base ∈ sets
  | other, _ => False

theorem lists_ofBase (base : Text) (written : Text.words base ≠ []) :
    (ofBase base).Lists base ∨ ofBase base = other := by
  unfold ofBase
  split
  · exact Or.inl ‹_›
  split
  · next boolean => exact Or.inl (List.contains_iff_mem.mp boolean)
  split
  · next number =>
    rw [Bool.or_eq_true, List.all_eq_true] at number
    exact Or.inl (number.imp List.contains_iff_mem.mp fun each =>
      ⟨written, fun word member => List.contains_iff_mem.mp (each word member)⟩)
  split
  · next string => exact Or.inl (List.contains_iff_mem.mp string)
  split
  · next array => exact Or.inl (List.contains_iff_mem.mp array)
  split
  · next map => exact Or.inl (List.contains_iff_mem.mp map)
  split
  · next set => exact Or.inl (List.contains_iff_mem.mp set)
  · exact Or.inr rfl

-- The test for number words passes where there is no word at all.
theorem ofBase_of_words {base : Text} (each : ∀ word ∈ Text.words base, word ∈ numberWords) :
    ofBase base = number := by
  have apart : ∀ known ∈ "void".toList :: booleans,
      ¬ ∀ word ∈ Text.words known, word ∈ numberWords := by decide
  have unknown : base ∉ "void".toList :: booleans := fun member => apart base member each
  rw [List.mem_cons, not_or] at unknown
  unfold ofBase
  rw [if_neg unknown.1, if_neg (by simpa using unknown.2), if_pos]
  rw [Bool.or_eq_true, List.all_eq_true]
  exact Or.inr fun word member => List.contains_iff_mem.mpr (each word member)

-- No two families list one name.
theorem ofBase_of_lists {base : Text} {family : Family} (listed : family.Lists base) :
    ofBase base = family := by
  cases family with
  | void =>
    subst listed
    decide
  | boolean => exact (by decide : ∀ base ∈ booleans, ofBase base = boolean) base listed
  | number =>
    rcases listed with known | ⟨_, each⟩
    · exact (by decide : ∀ base ∈ numbers, ofBase base = number) base known
    · exact ofBase_of_words each
  | string => exact (by decide : ∀ base ∈ strings, ofBase base = string) base listed
  | array => exact (by decide : ∀ base ∈ arrays, ofBase base = array) base listed
  | map => exact (by decide : ∀ base ∈ maps, ofBase base = map) base listed
  | set => exact (by decide : ∀ base ∈ sets, ofBase base = set) base listed
  | other => cases listed

theorem not_number_of_nameless {base : Text} (nameless : Text.words base = []) : ¬ number.Lists base := by
  have named : ∀ known ∈ numbers, Text.words known ≠ [] := by decide
  rintro (known | ⟨written, _⟩)
  · exact named base known nameless
  · exact written nameless

end Family

section Parts

/-- Whether a block or a function shows in a text. -/
def ShowsBlock (text : Text) : Prop := '^' ∈ text ∨ '(' ∈ text

instance (text : Text) : Decidable (ShowsBlock text) := inferInstanceAs (Decidable (_ ∨ _))

/-- The base name of a type: what stands before its angles, or all of it. -/
def baseOf (name : Text) : Text := (splitAngles name).1

theorem ofNative_trim (native : Text) : ofNative (Text.trim native) = ofNative native := by
  rw [ofNative, ofNative.eq_def native, Text.trim_trim]

theorem ofNative_string {native : Text} (isString : native.trim ∈ Family.strings) :
    ofNative native = string := by
  have written : native.trim ≠ [] := by
    intro none
    exact absurd (none ▸ isString) (by decide)
  rw [ofNative]
  rw [if_neg (by simpa using written), if_pos (by simpa using isString)]

theorem ofNative_block {native : Text} (shows : ShowsBlock native.trim)
    (apart : native.trim ∉ Family.strings) : ofNative native = opaqueObject native.trim := by
  have written : native.trim ≠ [] := by
    intro none
    rw [none] at shows
    simp [ShowsBlock] at shows
  rw [ofNative]
  rw [if_neg (by simpa using written), if_neg (by simpa using apart), if_pos]
  simpa [ShowsBlock] using shows

/-- A type that shows no block maps by its base name. -/
theorem ofNative_base {native : Text} (written : native.trim ≠ []) (apart : native.trim ∉ Family.strings)
    (plain : ¬ ShowsBlock native.trim) :
    ofNative native = ofFamily native.trim ((argumentsOf native.trim).map ofNative)
      (Family.ofBase (baseOf native.trim)) := by
  rw [ofNative]
  rw [if_neg (by simpa using written), if_neg (by simpa using apart), if_neg, List.attach_map_val, baseOf]
  simpa [ShowsBlock] using plain

end Parts

section Collections

/-- The families of collections. -/
def Family.IsCollection (family : Family) : Prop := family ∈ [array, map, set]

/-- Collection types of a family: a listed base name, alone or with arguments between angles and commas.
In an argument brackets are closed in their turn, and no comma stands outside them. -/
inductive Collects (family : Family) : Text → List Text → Prop
  | bare {base : Text} (listed : family.Lists base) : Collects family base []
  | applied {base gap : Text} {args : List Text} (listed : family.Lists base)
      (blank : ∀ c ∈ gap, isBlank c = true) (enclosed : ∀ arg ∈ args, Enclosed arg)
      (written : ∀ arg ∈ args, Text.trim arg ≠ []) :
      Collects family (base ++ gap ++ '<' :: (Text.join [','] args ++ ['>'])) args

/-- A base name of a collection is a word that shows no bracket. -/
structure IsCollectionName (base : Text) : Prop where
  word : Text.IsVisibleWord base
  unbracketed : '<' ∉ base
  plain : ¬ ShowsBlock base
  apart : base ∉ Family.strings

theorem collectionName_of_lists {family : Family} {base : Text} (collection : family.IsCollection)
    (listed : family.Lists base) : IsCollectionName base := by
  have known : base ∈ Family.arrays ++ Family.maps ++ Family.sets := by
    simp only [Family.IsCollection, List.mem_cons, List.not_mem_nil, or_false] at collection
    rcases collection with rfl | rfl | rfl
    · exact List.mem_append_left _ (List.mem_append_left _ listed)
    · exact List.mem_append_left _ (List.mem_append_right _ listed)
    · exact List.mem_append_right _ listed
  have each : ∀ base ∈ Family.arrays ++ Family.maps ++ Family.sets,
      base ≠ [] ∧ (∀ c ∈ base, isBlank c = false) ∧ '<' ∉ base ∧ ¬ ShowsBlock base ∧
        base ∉ Family.strings := by decide
  obtain ⟨written, visible, unbracketed, plain, apart⟩ := each base known
  exact ⟨⟨written, visible⟩, unbracketed, plain, apart⟩

theorem splitAngles_bare {base : Text} (unbracketed : '<' ∉ base) : splitAngles base = (base, none) := by
  have none : base.dropWhile (· != '<') = [] := by
    refine List.dropWhile_eq_nil_iff.mpr fun c member => ?_
    simpa using fun same : c = '<' => unbracketed (same ▸ member)
  unfold splitAngles
  rw [none]

theorem splitAngles_applied {base gap : Text} (inner : Text) (name : IsCollectionName base)
    (blank : ∀ c ∈ gap, isBlank c = true) :
    splitAngles (base ++ gap ++ '<' :: (inner ++ ['>'])) = (base, some inner) := by
  have before : ∀ c ∈ base ++ gap, (c != '<') = true := by
    intro c member
    rcases List.mem_append.mp member with own | space
    · simpa using fun same : c = '<' => name.unbracketed (same ▸ own)
    · have seen := blank c space
      simpa using fun same : c = '<' => absurd (same ▸ seen) (by decide)
  have behind : (base ++ gap ++ '<' :: (inner ++ ['>'])).dropWhile (· != '<') = '<' :: (inner ++ ['>']) := by
    rw [List.dropWhile_append_of_pos before]
    rfl
  have front : (base ++ gap ++ '<' :: (inner ++ ['>'])).takeWhile (· != '<') = base ++ gap := by
    rw [List.takeWhile_append_of_pos before]
    simp
  have last : (base ++ gap ++ '<' :: (inner ++ ['>'])).getLast? = some '>' := by
    rw [← List.cons_append, ← List.append_assoc, List.getLast?_concat]
  have trimmed : Text.trim (base ++ gap) = base := by
    rw [Text.trim_append_blank base gap blank, Text.trim_of_visible base name.word.head name.word.last]
  unfold splitAngles
  rw [behind, last]
  simp only [front, trimmed, List.dropLast_concat]

namespace Collects

variable {family : Family} {name : Text} {args : List Text} (collection : family.IsCollection)
  (collects : Collects family name args)

include collection collects

theorem lists : family.Lists (baseOf name) := by
  cases collects with
  | bare listed =>
    rwa [baseOf, splitAngles_bare (collectionName_of_lists collection listed).unbracketed]
  | applied listed blank enclosed written =>
    rwa [baseOf, splitAngles_applied _ (collectionName_of_lists collection listed) blank]

theorem arguments_eq : argumentsOf name = args.map Text.trim := by
  unfold argumentsOf
  cases collects with
  | bare listed => rw [splitAngles_bare (collectionName_of_lists collection listed).unbracketed]; rfl
  | applied listed blank enclosed written =>
    rw [splitAngles_applied _ (collectionName_of_lists collection listed) blank]
    exact arguments_join args enclosed written

theorem ne_nil : name ≠ [] := by
  cases collects with
  | bare listed => exact (collectionName_of_lists collection listed).word.written
  | applied listed blank enclosed written => simp

theorem not_string : name ∉ Family.strings := by
  cases collects with
  | bare listed => exact (collectionName_of_lists collection listed).apart
  | applied listed blank enclosed written =>
    have unbracketed : ∀ known ∈ Family.strings, '<' ∉ known := by decide
    exact fun member => unbracketed _ member (by simp)

-- Nothing but its arguments can show a block in a collection.
theorem showsBlock_iff : ShowsBlock name ↔ ∃ arg ∈ args, ShowsBlock arg := by
  cases collects with
  | bare listed => simpa using (collectionName_of_lists collection listed).plain
  | @applied base gap args listed blank enclosed written =>
    have plain := (collectionName_of_lists collection listed).plain
    have mark (c : Char) (visible : isBlank c = false) (outside : c ≠ '<' ∧ c ≠ '>' ∧ c ≠ ',')
        (absent : c ∉ base) :
        c ∈ base ++ gap ++ '<' :: (Text.join [','] args ++ ['>']) ↔ ∃ arg ∈ args, c ∈ arg := by
      have space : c ∉ gap := fun member => by simp [blank c member] at visible
      have inner := Text.mem_join_iff [','] (by simpa using outside.2.2) args
      simp [absent, space, outside, inner]
    simp only [ShowsBlock, not_or] at plain ⊢
    rw [mark '^' (by decide) (by decide) plain.1, mark '(' (by decide) (by decide) plain.2]
    grind

end Collects

/-- The argument at a place of a collection; any object where it is missing. -/
def argumentAt (args : List Text) (place : Nat) : ScriptType :=
  (args[place]?.map ofNative).getD (opaqueObject "id".toList)

theorem ofFamily_collection (name : Text) (args : List Text) :
    ofFamily name (args.map ofNative) .array = array (argumentAt args 0) ∧
      ofFamily name (args.map ofNative) .map = map (argumentAt args 0) (argumentAt args 1) ∧
      ofFamily name (args.map ofNative) .set = set (argumentAt args 0) := by
  match args with
  | [] => exact ⟨rfl, rfl, rfl⟩
  | [_] => exact ⟨rfl, rfl, rfl⟩
  | _ :: _ :: _ => exact ⟨rfl, rfl, rfl⟩

theorem ofNative_collects {native : Text} {family : Family} {args : List Text}
    (collection : family.IsCollection) (collects : Collects family native.trim args)
    (plain : ¬ ∃ arg ∈ args, ShowsBlock arg) :
    ofNative native = ofFamily native.trim (args.map ofNative) family := by
  rw [ofNative_base (collects.ne_nil collection) (collects.not_string collection)
    fun shows => plain ((collects.showsBlock_iff collection).mp shows)]
  rw [collects.arguments_eq collection, Family.ofBase_of_lists (collects.lists collection), List.map_map]
  exact congrArg (ofFamily native.trim · family) (List.map_congr_left fun arg _ => ofNative_trim arg)

theorem ofNative_collects_block {native : Text} {family : Family} {args : List Text}
    (collection : family.IsCollection) (collects : Collects family native.trim args)
    (shows : ∃ arg ∈ args, ShowsBlock arg) : ofNative native = opaqueObject native.trim :=
  ofNative_block ((collects.showsBlock_iff collection).mpr shows) (collects.not_string collection)

end Collections

section Bases

/-- A type of angles only, with no base name before them. -/
structure Baseless (name : Text) : Prop where
  opened : name.head? = some '<'
  closed : name.getLast? = some '>'
  plain : ¬ ShowsBlock name

theorem baseOf_angles {name : Text} (angle : '<' ∈ name) (last : name.getLast? = some '>') :
    baseOf name = Text.trim (name.takeWhile (· != '<')) := by
  have behind : ∃ inner, name.dropWhile (· != '<') = '<' :: inner := by
    cases found : name.dropWhile (· != '<') with
    | nil => simpa using List.dropWhile_eq_nil_iff.mp found '<' angle
    | cons c inner =>
      have stopped := List.head?_dropWhile_not (· != '<') name
      rw [found] at stopped
      exact ⟨inner, by rw [show c = '<' by simpa using stopped]⟩
  obtain ⟨inner, found⟩ := behind
  unfold baseOf splitAngles
  rw [found, last]
  rfl

theorem baseOf_plain {name : Text} (plain : ¬ ('<' ∈ name ∧ name.getLast? = some '>')) :
    baseOf name = name := by
  unfold baseOf splitAngles
  split
  · next inner found last =>
    refine absurd ⟨?_, last⟩ plain
    have stopped := List.head?_dropWhile_not (· != '<') name
    rw [found] at stopped
    have member := (List.dropWhile_suffix (· != '<')).subset (found ▸ List.mem_cons_self)
    simpa [show _ = '<' by simpa using stopped] using member
  · rfl

theorem words_ne_nil {text : Text} {c : Char} (head : text.head? = some c) (visible : isBlank c = false) :
    Text.words text ≠ [] := by
  intro none
  rcases Text.head_words text c head with blank | ⟨word, member, _⟩
  · simp [visible] at blank
  · rw [none] at member
    cases member

-- A trimmed text has a base name unless it begins with the angle.
theorem words_baseOf {name : Text} (trimmed : Text.trim name = name) (written : name ≠ []) :
    Text.words (baseOf name) = [] ↔ name.head? = some '<' ∧ name.getLast? = some '>' := by
  obtain ⟨c, rest, rfl⟩ := List.exists_cons_of_ne_nil written
  have visible : isBlank c = false := Text.head_trim (c :: rest) c (by rw [trimmed]; rfl)
  by_cases angles : '<' ∈ c :: rest ∧ (c :: rest).getLast? = some '>'
  · rw [baseOf_angles angles.1 angles.2, Text.words_trim]
    by_cases opened : c = '<'
    · subst opened
      exact iff_of_true rfl ⟨rfl, angles.2⟩
    · have named : ((c :: rest).takeWhile (· != '<')).head? = some c := by simp [opened]
      exact iff_of_false (words_ne_nil named visible) fun both => opened (Option.some.inj both.1)
  · rw [baseOf_plain angles]
    exact iff_of_false (words_ne_nil rfl visible) fun both =>
      angles ⟨List.mem_of_mem_head? both.1, both.2⟩

end Bases

section Following

/-- The mapping of a native type is that of the table. Collections map with their arguments, a number has
a listed base name, and a type whose base name is not listed keeps its text. -/
structure FollowsTable (native : Text) : Prop where
  arrays : ∀ args, Collects .array native.trim args → ofNative native = array (argumentAt args 0)
  maps : ∀ args, Collects .map native.trim args →
    ofNative native = map (argumentAt args 0) (argumentAt args 1)
  sets : ∀ args, Collects .set native.trim args → ofNative native = set (argumentAt args 0)
  numbers : ofNative native = number → Family.number.Lists (baseOf native.trim)
  others : (∀ family : Family, ¬ family.Lists (baseOf native.trim)) →
    ofNative native = opaqueObject native.trim

/-- A block stands among the arguments of a collection. -/
def HoldsBlock (name : Text) : Prop :=
  ∃ (family : Family) (args : List Text),
    family.IsCollection ∧ Collects family name args ∧ ∃ arg ∈ args, ShowsBlock arg

-- A type is a string by its name, opaque by a block, or what its base name says.
theorem ofNative_cases {native : Text} (written : native.trim ≠ []) :
    (native.trim ∈ Family.strings ∧ ofNative native = string) ∨
      (ShowsBlock native.trim ∧ ofNative native = opaqueObject native.trim) ∨
      (¬ ShowsBlock native.trim ∧ ofNative native =
        ofFamily native.trim ((argumentsOf native.trim).map ofNative)
          (Family.ofBase (baseOf native.trim))) := by
  by_cases isString : native.trim ∈ Family.strings
  · exact Or.inl ⟨isString, ofNative_string isString⟩
  · by_cases shows : ShowsBlock native.trim
    · exact Or.inr (Or.inl ⟨shows, ofNative_block shows isString⟩)
    · exact Or.inr (Or.inr ⟨shows, ofNative_base written isString shows⟩)

theorem ofNative_baseless {native : Text} (baseless : Baseless native.trim) :
    ofNative native = number ∧ Text.words (baseOf native.trim) = [] := by
  have written : native.trim ≠ [] := by
    intro none
    have opened := baseless.opened
    simp [none] at opened
  have nameless := (words_baseOf native.trim_trim written).mpr ⟨baseless.opened, baseless.closed⟩
  refine ⟨?_, nameless⟩
  have unstarted : ∀ known ∈ Family.strings, known.head? ≠ some '<' := by decide
  have isNumber : Family.ofBase (baseOf native.trim) = .number :=
    Family.ofBase_of_words (by simp [nameless])
  rw [ofNative_base written (fun member => unstarted _ member baseless.opened) baseless.plain, isNumber]
  rfl

theorem not_holdsBlock {name : Text} (plain : ¬ ShowsBlock name) : ¬ HoldsBlock name := by
  rintro ⟨family, args, collection, collects, shows⟩
  exact plain ((collects.showsBlock_iff collection).mpr shows)

theorem not_holdsBlock_of_follows {native : Text} (follows : FollowsTable native) :
    ¬ HoldsBlock native.trim := by
  rintro ⟨family, args, collection, collects, shows⟩
  have hidden := ofNative_collects_block collection collects shows
  simp only [Family.IsCollection, List.mem_cons, List.not_mem_nil, or_false] at collection
  rcases collection with rfl | rfl | rfl
  · cases hidden.symm.trans (follows.arrays args collects)
  · cases hidden.symm.trans (follows.maps args collects)
  · cases hidden.symm.trans (follows.sets args collects)

theorem not_baseless_of_follows {native : Text} (follows : FollowsTable native) :
    ¬ Baseless native.trim := by
  intro baseless
  obtain ⟨isNumber, nameless⟩ := ofNative_baseless baseless
  exact Family.not_number_of_nameless nameless (follows.numbers isNumber)

section Based

variable {native : Text} (written : native.trim ≠ []) (based : ¬ Baseless native.trim)

include written based

theorem lists_baseOf (plain : ¬ ShowsBlock native.trim) :
    (Family.ofBase (baseOf native.trim)).Lists (baseOf native.trim) ∨
      Family.ofBase (baseOf native.trim) = .other := by
  refine Family.lists_ofBase _ fun nameless => based ?_
  obtain ⟨opened, closed⟩ := (words_baseOf native.trim_trim written).mp nameless
  exact ⟨opened, closed, plain⟩

-- Only the family of numbers gives a number.
theorem lists_of_number (isNumber : ofNative native = number) :
    Family.number.Lists (baseOf native.trim) := by
  rcases ofNative_cases written with ⟨_, mapped⟩ | ⟨_, mapped⟩ | ⟨plain, mapped⟩
  · cases isNumber.symm.trans mapped
  · cases isNumber.symm.trans mapped
  · have family : Family.ofBase (baseOf native.trim) = .number := by
      rw [isNumber] at mapped
      cases found : Family.ofBase (baseOf native.trim) with
      | number => rfl
      | _ => rw [found] at mapped; cases mapped
    rcases lists_baseOf written based plain with lists | other
    · rwa [family] at lists
    · rw [family] at other
      cases other

theorem opaque_of_unlisted (unlisted : ∀ family : Family, ¬ family.Lists (baseOf native.trim)) :
    ofNative native = opaqueObject native.trim := by
  rcases ofNative_cases written with ⟨isString, _⟩ | ⟨_, mapped⟩ | ⟨plain, mapped⟩
  · have itself : ∀ known ∈ Family.strings, baseOf known = known := by decide
    exact absurd (show Family.string.Lists (baseOf native.trim) by rwa [itself _ isString])
      (unlisted .string)
  · exact mapped
  · rcases lists_baseOf written based plain with lists | other
    · exact absurd lists (unlisted _)
    · rwa [other] at mapped

end Based

/-- A type that is not blank maps as the table says unless a block stands among the arguments of a
collection, or nothing stands before the angles. -/
theorem followsTable_iff (native : Text) (written : native.trim ≠ []) :
    FollowsTable native ↔ ¬ HoldsBlock native.trim ∧ ¬ Baseless native.trim := by
  constructor
  · exact fun follows => ⟨not_holdsBlock_of_follows follows, not_baseless_of_follows follows⟩
  · rintro ⟨blockless, based⟩
    have collected {family : Family} (collection : family.IsCollection) {args : List Text}
        (collects : Collects family native.trim args) :
        ofNative native = ofFamily native.trim (args.map ofNative) family :=
      ofNative_collects collection collects fun shows =>
        blockless ⟨family, args, collection, collects, shows⟩
    refine ⟨fun args collects => ?_, fun args collects => ?_, fun args collects => ?_,
      lists_of_number written based, opaque_of_unlisted written based⟩
    · exact (collected (by simp [Family.IsCollection]) collects).trans (ofFamily_collection _ args).1
    · exact (collected (by simp [Family.IsCollection]) collects).trans (ofFamily_collection _ args).2.1
    · exact (collected (by simp [Family.IsCollection]) collects).trans (ofFamily_collection _ args).2.2

theorem followsTable_views :
    Text.trim " NSDictionary<NSString, NSArray<NSView>>".toList ≠ [] ∧
      FollowsTable " NSDictionary<NSString, NSArray<NSView>>".toList := by
  have written : Text.trim " NSDictionary<NSString, NSArray<NSView>>".toList ≠ [] := by decide
  refine ⟨written, (followsTable_iff _ written).mpr ⟨not_holdsBlock (by decide), ?_⟩⟩
  exact fun baseless => absurd baseless.opened (by decide)

/-- An array of blocks is no array, and a protocol without a base name is a number. -/
theorem block_element_hides_array :
    ¬ FollowsTable "NSArray<void (^)(void)>".toList ∧ ¬ FollowsTable "<NSCopying>".toList := by
  constructor
  · intro follows
    have whole : Text.trim "NSArray<void (^)(void)>".toList =
        "NSArray".toList ++ [] ++ '<' :: (Text.join [','] ["void (^)(void)".toList] ++ ['>']) := by decide
    refine not_holdsBlock_of_follows follows ⟨.array, ["void (^)(void)".toList], List.mem_cons_self, ?_,
      _, List.mem_cons_self, by decide⟩
    rw [whole]
    exact .applied List.mem_cons_self (by decide) (by decide) (by decide)
  · exact fun follows => not_baseless_of_follows follows ⟨by decide, by decide, by decide⟩

end Following

end ScriptType

end HeaderBindings
