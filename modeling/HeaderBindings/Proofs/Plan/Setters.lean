import HeaderBindings.Proofs.Plan.Structure

/-!
Which methods are left out as setters of declared properties. A method `setName:` is taken for the
setter of the first property whose name it spells when its capitals are lowered; a property is set by
the selector that an attribute or the convention gives it. The two agree unless a method spells a
property that has another setter, or does not spell the property that it sets.
-/

namespace HeaderBindings

section Case

theorem letter_of_upper (c : Char) (upper : c.isUpper = true) :
    ∃ n < 26, c = Char.ofNat (65 + n) := by
  have bounds : 'A'.val ≤ c.val ∧ c.val ≤ 'Z'.val := of_decide_eq_true upper
  have low : 65 ≤ c.toNat := UInt32.le_iff_toNat_le.mp bounds.1
  have high : c.toNat ≤ 90 := UInt32.le_iff_toNat_le.mp bounds.2
  refine ⟨c.toNat - 65, by omega, ?_⟩
  rw [Nat.add_sub_cancel' low, Char.ofNat_toNat]

theorem letter_of_lower (c : Char) (lower : c.isLower = true) :
    ∃ n < 26, c = Char.ofNat (97 + n) := by
  have bounds : (decide (c.val ≥ 'a'.val) && decide (c.val ≤ 'z'.val)) = true := lower
  simp only [Bool.and_eq_true, decide_eq_true_eq] at bounds
  have low : 97 ≤ c.toNat := UInt32.le_iff_toNat_le.mp bounds.1
  have high : c.toNat ≤ 122 := UInt32.le_iff_toNat_le.mp bounds.2
  refine ⟨c.toNat - 97, by omega, ?_⟩
  rw [Nat.add_sub_cancel' low, Char.ofNat_toNat]

theorem toUpper_of_not_lower (c : Char) (other : c.isLower = false) : c.toUpper = c := by
  have outside : ¬ ('a'.val ≤ c.val ∧ c.val ≤ 'z'.val) := by
    rintro ⟨low, high⟩
    have small : (decide (c.val ≥ 'a'.val) && decide (c.val ≤ 'z'.val)) = true := by
      simp only [Bool.and_eq_true, decide_eq_true_eq]
      exact ⟨low, high⟩
    exact Bool.false_ne_true (other.symm.trans small)
  exact dif_neg outside

-- A capital has one small letter, and a small letter one capital.
theorem toUpper_eq_iff (c d : Char) (upper : c.isUpper = true) :
    d.toUpper = c ↔ d = c ∨ d = c.toLower := by
  have capitals : ∀ n < 26, (Char.ofNat (65 + n)).isLower = false ∧
      (Char.ofNat (65 + n)).toLower.toUpper = Char.ofNat (65 + n) := by decide
  have smalls : ∀ n < 26, (Char.ofNat (97 + n)).toUpper.toLower = Char.ofNat (97 + n) := by decide
  constructor
  · rintro rfl
    cases small : d.isLower with
    | false => exact Or.inl (toUpper_of_not_lower d small).symm
    | true =>
      obtain ⟨n, bound, rfl⟩ := letter_of_lower d small
      exact Or.inr (smalls n bound).symm
  · obtain ⟨n, bound, rfl⟩ := letter_of_upper c upper
    rintro (rfl | rfl)
    · exact toUpper_of_not_lower _ (capitals n bound).1
    · exact (capitals n bound).2

theorem toLower_ne (c : Char) (upper : c.isUpper = true) : c.toLower ≠ c := by
  have capitals : ∀ n < 26, (Char.ofNat (65 + n)).toLower ≠ Char.ofNat (65 + n) := by decide
  obtain ⟨n, bound, rfl⟩ := letter_of_upper c upper
  exact capitals n bound

end Case

namespace Identifier

theorem capitalsToLower_pos (c : Char) (rest : Text) (upper : c.isUpper = true) :
    1 ≤ capitalsToLower (c :: rest) := by
  simp only [capitalsToLower, List.takeWhile_cons, upper, if_true, List.length_cons]
  split
  · next more =>
    simp only [Bool.and_eq_true, decide_eq_true_eq] at more
    omega
  · omega

theorem capital_behind (c : Char) (rest : Text) (more : 1 < capitalsToLower (c :: rest)) :
    ∃ d later, rest = d :: later ∧ d.isUpper = true := by
  have bound : capitalsToLower (c :: rest) ≤ ((c :: rest).takeWhile Char.isUpper).length := by
    unfold capitalsToLower
    dsimp only
    split <;> omega
  cases rest with
  | nil =>
    have short := (List.takeWhile_prefix Char.isUpper (l := [c])).length_le
    simp at short
    omega
  | cons d later =>
    refine ⟨d, later, rfl, ?_⟩
    by_contra other
    simp only [List.takeWhile_cons, other] at bound
    split at bound <;> simp at bound <;> omega

/-- A capital and what stands behind it keep their spelling, but for the capital, if it is the only
one that is lowered. -/
theorem lowerLeadingCapitals_cons (c : Char) (rest : Text) (upper : c.isUpper = true) :
    ∃ tail, lowerLeadingCapitals (c :: rest) = c.toLower :: tail ∧
      (tail = rest ↔ capitalsToLower (c :: rest) = 1) := by
  have positive := capitalsToLower_pos c rest upper
  obtain ⟨count, counted⟩ := Nat.exists_eq_add_of_le' positive
  refine ⟨(rest.take count).map Char.toLower ++ rest.drop count, ?_, ?_⟩
  · simp [lowerLeadingCapitals, counted]
  · rw [counted]
    constructor
    · intro same
      cases count with
      | zero => rfl
      | succ count =>
        -- The next letter is a capital, too, and does not stay one.
        obtain ⟨d, later, rfl, next⟩ := capital_behind c rest (by omega)
        exact absurd (List.cons.inj same).1 (toLower_ne d next)
    · intro single
      have none : count = 0 := by omega
      simp [none]

end Identifier

namespace Property

/-- A property of instances that can be set. -/
def settable (property : Property) : Bool := !property.readonly && !property.isClass

end Property

namespace Method

/-- What stands behind `set` in a method's name, if it starts with a capital. -/
def setWord? (method : Method) : Option Text :=
  (Text.after? "set".toList method.baseName).filter fun word => word.head?.any Char.isUpper

variable {method : Method}

theorem setWord_eq_some {word : Text} (spelled : method.setWord? = some word) :
    ∃ c rest, word = c :: rest ∧ c.isUpper = true ∧ method.baseName = "set".toList ++ c :: rest := by
  obtain ⟨after, capital⟩ := Option.filter_eq_some_iff.mp spelled
  have base := (Text.after_eq_some_iff _ _ _).mp after
  cases word with
  | nil => cases capital
  | cons c rest => exact ⟨c, rest, rfl, by simpa using capital, base⟩

theorem setterProperty_eq (side : method.isStatic = false) (one : method.arity = 1)
    (colon : method.colonCount = 1) :
    MemberPlan.setterProperty? method = method.setWord?.map Identifier.lowerLeadingCapitals := by
  have plain : (method.isStatic || method.arity != 1 || method.colonCount != 1) = false := by
    simp [side, one, colon]
  rw [MemberPlan.setterProperty?, setWord?, plain, if_neg Bool.false_ne_true]
  split
  · next c rest after =>
    rw [after]
    by_cases capital : c.isUpper = true <;> simp [capital, Option.filter]
  · next other =>
    cases after : Text.after? "set".toList method.baseName with
    | none => rfl
    | some word =>
      cases word with
      | nil => rfl
      | cons c rest => exact absurd after (other c rest)

theorem colonCount_of_one (formed : method.wellFormed = true) (one : method.arity = 1) :
    method.colonCount = 1 := by
  simp only [wellFormed, Bool.and_eq_true, beq_iff_eq] at formed
  rw [formed.2, one]

-- A selector with one colon at its end is a name and the colon.
theorem baseName_of_selector (name : Text) (whole : method.selector = name ++ [':'])
    (colon : method.colonCount = 1) : method.baseName = name := by
  have free : ':' ∉ name := by
    rw [colonCount, whole, List.count_append] at colon
    exact List.count_eq_zero.mp (by simpa using colon)
  have all : ∀ c ∈ name, (c != ':') = true := fun c member =>
    bne_iff_ne.mpr fun same => free (same ▸ member)
  rw [baseName, whole, List.takeWhile_append_of_pos all]
  simp

end Method

namespace Property

/-- Whether a property that a method spells is set by the method's selector: an attribute says so, or
no attribute does and the word is the name of the property with one capital. -/
def SetBy (property : Property) (method : Method) (word : Text) : Prop :=
  match property.setter with
  | some selector => selector = method.selector
  | none => Identifier.capitalsToLower word = 1 ∧ method.selector = method.baseName ++ [':']

theorem setBy_iff (property : Property) (method : Method) (word : Text)
    (spelled : method.setWord? = some word) (colon : method.colonCount = 1)
    (named : property.name = Identifier.lowerLeadingCapitals word) :
    property.SetBy method word ↔ property.setterSelector = method.selector := by
  unfold SetBy setterSelector
  cases property.setter with
  | some selector => rfl
  | none =>
    obtain ⟨c, rest, rfl, upper, base⟩ := Method.setWord_eq_some spelled
    obtain ⟨tail, lowered, single⟩ := Identifier.lowerLeadingCapitals_cons c rest upper
    have capital : c.toLower.toUpper = c := (toUpper_eq_iff c _ upper).mpr (Or.inr rfl)
    have conventional : conventionalSetter property.name = "set".toList ++ c :: tail ++ [':'] := by
      rw [named, lowered, conventionalSetter, capital]
    rw [Option.getD_none, conventional, ← single]
    constructor
    · rintro ⟨rfl, whole⟩
      rw [whole, base]
    · intro whole
      have name := Method.baseName_of_selector _ whole.symm colon
      rw [name] at base
      have same : tail = rest := by simpa using base
      exact ⟨same, by rw [name, whole]⟩

end Property

namespace ClassDecl

variable (decl : ClassDecl)

/-- Some property of instances is set by a selector. -/
def Sets (selector : Text) : Prop :=
  ∃ property ∈ decl.properties, property.settable = true ∧ property.setterSelector = selector

/-- The property whose name a method `setName:` spells. -/
def spelled? (method : Method) : Option Property :=
  method.setWord?.bind fun word => decl.property? (Identifier.lowerLeadingCapitals word)

theorem name_of_property {name : Text} {property : Property}
    (found : decl.property? name = some property) : property.name = name := by
  simpa using List.find?_some found

/-- A method spells a property that can be set by another selector only, and no other property has the
method's selector. -/
def Mistakes (method : Method) : Prop :=
  ∃ word property, method.setWord? = some word ∧
    decl.property? (Identifier.lowerLeadingCapitals word) = some property ∧
    property.settable = true ∧ ¬ property.SetBy method word ∧
    ∀ other ∈ decl.properties, other ≠ property → other.settable = true →
      other.setterSelector ≠ method.selector

/-- A method has the selector of a property that can be set, and spells no such property. -/
def Overlooks (method : Method) : Prop :=
  decl.Sets method.selector ∧ ∀ property ∈ decl.spelled? method, property.settable = false

end ClassDecl

namespace MemberPlan

variable {decl : ClassDecl} {entry : Entry}

/-- A well-formed method is left out as a setter exactly if that is where it belongs. -/
theorem dropped_setter_iff (declared : entry ∈ entries decl)
    (formed : entry.method.wellFormed = true) :
    (entry, .propertySetter) ∈ (ofClass decl).dropped ↔
      destination decl entry.method = .propertySetter := by
  have settled := settled_ofClass decl
  refine ⟨fun dropped => settled.dropped _ dropped formed, fun place => ?_⟩
  have placed := (placed_ofClass decl).mem_iff.mpr declared
  simp only [MemberPlan.placed, List.mem_append, List.mem_map, List.mem_flatMap] at placed
  -- The method stands in one part of the plan, and each of the others holds what belongs elsewhere.
  rcases placed with ((⟨setter, planned, rfl⟩ | ⟨group, planned, here⟩) | marked)
    | ⟨⟨_, reason⟩, dropped, rfl⟩
  · have other := (settled.setters setter planned).2
    rw [place] at other
    cases other
  · have other := (settled.groups group planned).2 entry here
    rw [place] at other
    cases other
  · have malformed := (List.mem_filter.mp ((incomplete_ofClass decl).mem marked)).2
    simp [formed] at malformed
  · have explained := settled.dropped _ dropped formed
    cases reason with
    | propertySetter => exact dropped
    | duplicateSetter =>
      obtain ⟨name, other⟩ := explained
      rw [place] at other
      cases other
    | propertyGetter | duplicateSelector =>
      rw [place] at explained
      cases explained
    | _ => cases explained

theorem destination_setter_iff (formed : entry.method.wellFormed = true)
    (side : entry.method.isStatic = false) (one : entry.method.arity = 1) :
    destination decl entry.method = .propertySetter ↔
      ∃ property ∈ decl.spelled? entry.method, property.settable = true := by
  have getter : redeclaresGetter decl entry.method = false := by simp [redeclaresGetter, one]
  have colon := Method.colonCount_of_one formed one
  rw [destination, getter, if_neg Bool.false_ne_true, Method.setterProperty_eq side one colon,
    ClassDecl.spelled?]
  cases entry.method.setWord? with
  | none => simp
  | some word =>
    simp only [Option.map_some, Option.bind_some, setterDestination]
    cases decl.property? (Identifier.lowerLeadingCapitals word) with
    | none =>
      simp only [Option.not_mem_none, false_and, exists_false, iff_false]
      split <;> simp
    | some property => by_cases free : property.settable = true <;> simp_all [Property.settable]

/-- An instance method of one parameter is left out as a setter exactly if a property is set by its
selector, unless it is mistaken for a setter or overlooked as one. -/
theorem dropped_setter_agrees_iff (declared : entry ∈ entries decl)
    (formed : entry.method.wellFormed = true) (side : entry.method.isStatic = false)
    (one : entry.method.arity = 1) :
    ((entry, .propertySetter) ∈ (ofClass decl).dropped ↔ decl.Sets entry.method.selector) ↔
      ¬ decl.Mistakes entry.method ∧ ¬ decl.Overlooks entry.method := by
  have colon := Method.colonCount_of_one formed one
  rw [dropped_setter_iff declared formed, destination_setter_iff formed side one]
  constructor
  · intro agrees
    refine ⟨?_, ?_⟩
    · rintro ⟨word, property, spelled, found, free, other, none⟩
      have taken : property ∈ decl.spelled? entry.method := by simp [ClassDecl.spelled?, spelled, found]
      obtain ⟨owner, member, settable, selector⟩ := agrees.mp ⟨property, taken, free⟩
      by_cases same : owner = property
      · have named := decl.name_of_property found
        exact other ((property.setBy_iff _ word spelled colon named).mpr (same ▸ selector))
      · exact none owner member same settable selector
    · rintro ⟨sets, none⟩
      obtain ⟨property, spelled, free⟩ := agrees.mpr sets
      simp [none property spelled] at free
  · rintro ⟨right, seen⟩
    constructor
    · rintro ⟨property, spelled, free⟩
      by_contra unset
      obtain ⟨word, spelled, found⟩ := Option.bind_eq_some_iff.mp spelled
      have member := List.mem_of_find?_eq_some found
      refine right ⟨word, property, spelled, found, free, fun own => ?_, fun other inside _ settable same =>
        unset ⟨other, inside, settable, same⟩⟩
      have selector := (property.setBy_iff _ word spelled colon (decl.name_of_property found)).mp own
      exact unset ⟨property, member, free, selector⟩
    · intro sets
      by_contra none
      exact seen ⟨sets, fun property spelled =>
        Bool.eq_false_iff.mpr fun free => none ⟨property, spelled, free⟩⟩

/-- A property with a setter of another name, which a method declares again. -/
def hiddenPanel : ClassDecl where
  name := "Panel".toList
  properties := [{ name := "hidden".toList, type := "BOOL".toList, setter := some "setIsHidden:".toList }]
  methods := [{ selector := "setIsHidden:".toList, params := [⟨"flag".toList, "BOOL".toList, false, []⟩],
                returnType := "void".toList, isStatic := false }]

def setIsHidden : Entry := ⟨0, hiddenPanel.methods[0]⟩

theorem dropped_setter_agrees_hidden :
    setIsHidden ∈ entries hiddenPanel ∧ setIsHidden.method.wellFormed = true ∧
      setIsHidden.method.isStatic = false ∧ setIsHidden.method.arity = 1 ∧
      (((setIsHidden, .propertySetter) ∈ (ofClass hiddenPanel).dropped ↔
          hiddenPanel.Sets setIsHidden.method.selector) ↔
        ¬ hiddenPanel.Mistakes setIsHidden.method ∧ ¬ hiddenPanel.Overlooks setIsHidden.method) :=
  ⟨by decide, by decide, by decide, by decide,
    dropped_setter_agrees_iff (by decide) (by decide) (by decide) (by decide)⟩

/-- The setter that an attribute gives to a property is not left out where a method declares it
again. -/
theorem hidden_setter_kept :
    ¬ ∀ (decl : ClassDecl) (entry : Entry), entry ∈ entries decl → entry.method.wellFormed = true →
      entry.method.isStatic = false → entry.method.arity = 1 →
        ((entry, .propertySetter) ∈ (ofClass decl).dropped ↔ decl.Sets entry.method.selector) := by
  intro agrees
  have sets : hiddenPanel.Sets setIsHidden.method.selector :=
    ⟨hiddenPanel.properties[0], by decide, by decide, by decide⟩
  have dropped := (agrees hiddenPanel setIsHidden (by decide) (by decide) (by decide) (by decide)).mpr sets
  exact absurd dropped (by decide)

end MemberPlan

end HeaderBindings
