import Mathlib.Data.Fintype.EquivFin
import Mathlib.Order.WellFounded
import MatchCompiler.Proofs.Implication
import MatchCompiler.Proofs.LevelSearch

/-!
# Hierarchies tell the truth

Subtyping is what the links between types say, one after the other. In a
hierarchy in which only classes are extended and only interfaces implemented,
what it says about conversions is so for every value that it types.
-/

set_option autoImplicit false

namespace MatchCompiler

namespace Hierarchy

def Above (hierarchy : Hierarchy) (lower upper : Ty) : Prop :=
  upper ∈ hierarchy.supertypes lower

theorem declared_of_above {hierarchy : Hierarchy} {lower upper : Ty}
    (above : hierarchy.Above lower upper) :
    ∃ declaration, hierarchy.find? lower = some declaration ∧
      (declaration.parent = some upper ∨ upper ∈ declaration.interfaces) := by
  unfold Above supertypes at above
  cases found : hierarchy.find? lower with
  | none => simp [found] at above
  | some declaration =>
      refine ⟨declaration, rfl, ?_⟩
      simpa [found, TypeDeclaration.supertypes] using above

theorem above_of_declared {hierarchy : Hierarchy} {lower upper : Ty} {declaration : TypeDeclaration}
    (found : hierarchy.find? lower = some declaration)
    (linked : declaration.parent = some upper ∨ upper ∈ declaration.interfaces) :
    hierarchy.Above lower upper := by
  unfold Above supertypes
  simpa [found, TypeDeclaration.supertypes] using linked

theorem find?_inside {hierarchy : Hierarchy} {type : Ty} {declaration : TypeDeclaration}
    (found : hierarchy.find? type = some declaration) : type.index < hierarchy.size :=
  (Array.getElem?_eq_some_iff.mp found).1

theorem Above.inside {hierarchy : Hierarchy} {lower upper : Ty}
    (above : hierarchy.Above lower upper) : lower.index < hierarchy.size := by
  obtain ⟨_, found, _⟩ := declared_of_above above
  exact find?_inside found

theorem acyclic_of_falling {hierarchy : Hierarchy} (rank : Ty → Nat)
    (falls : ∀ {lower upper : Ty}, hierarchy.Above lower upper → rank upper < rank lower)
    (type : Ty) : ¬ Relation.TransGen hierarchy.Above type type := by
  suffices ∀ upper, Relation.TransGen hierarchy.Above type upper → rank upper < rank type from
    fun cycle => Nat.lt_irrefl (rank type) (this type cycle)
  intro upper path
  induction path with
  | single above => exact falls above
  | tail _ above ih => exact (falls above).trans ih

/-- Only declared types have links, so without a cycle every way up comes to an end. -/
theorem wellFounded_above {hierarchy : Hierarchy}
    (acyclic : ∀ type, ¬ Relation.TransGen hierarchy.Above type type) :
    WellFounded fun upper lower => hierarchy.Above lower upper := by
  let lies (first second : Fin hierarchy.size) : Prop :=
    Relation.TransGen hierarchy.Above ⟨second⟩ ⟨first⟩
  have isTrans : IsTrans (Fin hierarchy.size) lies :=
    ⟨fun _ _ _ first second => second.trans first⟩
  have isIrrefl : Std.Irrefl lies := ⟨fun index => acyclic ⟨index⟩⟩
  have wellFounded : WellFounded lies := Finite.wellFounded_of_trans_of_irrefl lies
  have declared : ∀ index : Fin hierarchy.size,
      Acc (fun upper lower => hierarchy.Above lower upper) ⟨index⟩ := by
    intro index
    induction index using wellFounded.induction with
    | _ index ih =>
        refine .intro _ fun upper above => ?_
        by_cases inside : upper.index < hierarchy.size
        · exact ih ⟨upper.index, inside⟩ (.single above)
        · exact .intro _ fun _ further => absurd further.inside inside
  refine ⟨fun type => .intro type fun upper above => ?_⟩
  exact (declared ⟨type.index, above.inside⟩).inv above

theorem isSubtype_iff {hierarchy : Hierarchy} {sub super : Ty} :
    hierarchy.isSubtype sub super = true ↔ Relation.ReflTransGen hierarchy.Above sub super := by
  have distinct : Function.Injective Ty.index := fun ⟨_⟩ ⟨_⟩ same => by cases same; rfl
  simp only [isSubtype, ancestry, Bool.or_eq_true, beq_iff_eq, List.any_eq_true, List.contains_iff_mem]
  constructor
  · rintro (rfl | ⟨type, visited, above⟩)
    · exact .refl
    · obtain ⟨_, isSub, _, path⟩ := (LevelSearch.mem_visits distinct).mp visited
      obtain rfl := List.mem_singleton.mp isSub
      exact .tail (path.lift id fun _ _ onward => onward.1) above
  · intro path
    cases path with
    | refl => exact Or.inl rfl
    | @tail middle _ path above =>
        refine Or.inr ⟨middle, (LevelSearch.mem_visits distinct).mpr ?_, above⟩
        have inside := above.inside
        clear above
        suffices sub.index < hierarchy.size ∧ Relation.ReflTransGen
            (LevelSearch.Onward ⟨Ty.index, hierarchy.supertypes, hierarchy.size⟩) sub middle from
          ⟨sub, List.mem_singleton_self sub, this.1, this.2⟩
        induction path with
        | refl => exact ⟨inside, .refl⟩
        | tail _ above ih =>
            obtain ⟨subInside, path⟩ := ih above.inside
            exact ⟨subInside, path.tail ⟨above, inside⟩⟩

theorem classify_self (hierarchy : Hierarchy) (type : Ty) :
    hierarchy.classify type type = .always :=
  if_pos (isSubtype_iff.mpr .refl)

inductive Made : Hierarchy → Prop
  | empty : Made .empty
  | addClass {hierarchy : Hierarchy} (name : String) (parent : Option Ty)
      (made : Made hierarchy) : Made (hierarchy.addClass name parent).2
  | addSealedClass {hierarchy : Hierarchy} (name : String) (parent : Option Ty)
      (made : Made hierarchy) : Made (hierarchy.addSealedClass name parent).2
  | addValueType {hierarchy : Hierarchy} (name : String) (made : Made hierarchy) :
      Made (hierarchy.addValueType name).2
  | addInterface {hierarchy : Hierarchy} (name : String) (made : Made hierarchy) :
      Made (hierarchy.addInterface name).2
  | implement {hierarchy : Hierarchy} (type interface : Ty) (made : Made hierarchy) :
      Made (hierarchy.implement type interface)

/-- What the declaration of a type looks like, apart from its interfaces. -/
structure Declares (type : Ty) (declaration : TypeDeclaration) : Prop where
  root : type = object → declaration.parent = none ∧ declaration.kind = .reference ∧
    declaration.isSealed = false
  parent : type ≠ object → declaration.parent.isSome
  interface : declaration.kind = .interface →
    declaration.parent = some object ∧ declaration.isSealed = false

theorem find?_declare {hierarchy : Hierarchy} {declaration : TypeDeclaration} {type : Ty} :
    (hierarchy.declare declaration).2.find? type =
      if type.index = hierarchy.size then some declaration else hierarchy.find? type :=
  Array.getElem?_push

theorem find?_implement {hierarchy : Hierarchy} {type interface other : Ty}
    {declaration : TypeDeclaration}
    (found : (hierarchy.implement type interface).find? other = some declaration) :
    ∃ before, hierarchy.find? other = some before ∧ declaration.kind = before.kind ∧
      declaration.parent = before.parent ∧ declaration.isSealed = before.isSealed := by
  unfold find? implement at found
  rw [Array.getElem?_modify] at found
  split at found
  · obtain ⟨before, beforeFound, rfl⟩ := Option.map_eq_some_iff.mp found
    exact ⟨before, beforeFound, rfl, rfl, rfl⟩
  · exact ⟨declaration, found, rfl, rfl, rfl⟩

theorem object_inside {hierarchy : Hierarchy} (made : hierarchy.Made) : 0 < hierarchy.size := by
  induction made with
  | empty => decide
  | implement type interface _ ih => simpa [implement, size] using ih
  | _ => simp [addClass, addSealedClass, addValueType, addInterface, declare, size]

theorem declares_of_declare {hierarchy : Hierarchy} {declared declaration : TypeDeclaration}
    {type : Ty} (made : hierarchy.Made)
    (earlier : ∀ {other}, hierarchy.find? type = some other → Declares type other)
    (hasParent : declared.parent.isSome)
    (interface : declared.kind = .interface →
      declared.parent = some object ∧ declared.isSealed = false)
    (found : (hierarchy.declare declared).2.find? type = some declaration) :
    Declares type declaration := by
  rw [find?_declare] at found
  split at found
  · rename_i isNew
    cases found
    refine ⟨?_, fun _ => hasParent, interface⟩
    rintro rfl
    have inside := object_inside made
    rw [← isNew] at inside
    exact absurd inside (Nat.lt_irrefl 0)
  · exact earlier found

theorem declares_of_made {hierarchy : Hierarchy} (made : hierarchy.Made) {type : Ty} :
    ∀ {declaration : TypeDeclaration}, hierarchy.find? type = some declaration →
      Declares type declaration := by
  induction made with
  | empty =>
      intro declaration found
      obtain ⟨inside, rfl⟩ := Array.getElem?_eq_some_iff.mp found
      obtain rfl : type = object := by
        cases type
        exact congrArg Ty.mk (Nat.lt_one_iff.mp inside)
      exact ⟨fun _ => ⟨rfl, rfl, rfl⟩, fun notRoot => absurd rfl notRoot, by simp [empty, object]⟩
  | addClass name parent made ih => exact declares_of_declare made ih rfl (by simp)
  | addSealedClass name parent made ih => exact declares_of_declare made ih rfl (by simp)
  | addValueType name made ih => exact declares_of_declare made ih rfl (by simp)
  | addInterface name made ih => exact declares_of_declare made ih rfl (by simp)
  | implement target interface made ih =>
      intro declaration found
      obtain ⟨before, beforeFound, kind, parent, isSealed⟩ := find?_implement found
      have declares := ih beforeFound
      exact ⟨by rw [kind, parent, isSealed]; exact declares.root, by rw [parent]; exact declares.parent,
        by rw [kind, parent, isSealed]; exact declares.interface⟩

/-- Only classes that are not sealed are extended, only interfaces implemented,
and no type lies above itself. -/
structure WellFormed (hierarchy : Hierarchy) : Prop where
  made : hierarchy.Made
  parents : ∀ type declaration parent, hierarchy.find? type = some declaration →
    declaration.parent = some parent →
    ∃ above, hierarchy.find? parent = some above ∧ above.kind = .reference ∧
      above.isSealed = false
  interfaces : ∀ type declaration interface, hierarchy.find? type = some declaration →
    interface ∈ declaration.interfaces → hierarchy.isInterface interface = true
  acyclic : ∀ type, ¬ Relation.TransGen hierarchy.Above type type

variable {hierarchy : Hierarchy}

theorem declared_of_isInterface {type : Ty} (isInterface : hierarchy.isInterface type = true) :
    ∃ declaration, hierarchy.find? type = some declaration ∧ declaration.kind = .interface := by
  unfold Hierarchy.isInterface at isInterface
  cases found : hierarchy.find? type with
  | none => simp [found] at isInterface
  | some declaration => exact ⟨declaration, rfl, by simpa [found] using isInterface⟩

namespace WellFormed

/-- A hierarchy in which every link leads to an earlier type can be looked
through type by type. -/
theorem of_descending (made : hierarchy.Made)
    (parents : ∀ index : Fin hierarchy.size, ∀ parent ∈ hierarchy.declarations[index].parent,
      parent.index < index ∧
        (hierarchy.find? parent).any (fun above => above.kind == .reference && !above.isSealed))
    (interfaces : ∀ index : Fin hierarchy.size,
      ∀ interface ∈ hierarchy.declarations[index].interfaces,
        interface.index < index ∧ hierarchy.isInterface interface) :
    hierarchy.WellFormed where
  made := made
  parents := by
    intro type declaration parent found isParent
    obtain ⟨inside, rfl⟩ := Array.getElem?_eq_some_iff.mp found
    obtain ⟨_, extendable⟩ := parents ⟨type.index, inside⟩ parent isParent
    obtain ⟨above, aboveFound, isClass⟩ := (Option.any_eq_true _ _).mp extendable
    exact ⟨above, aboveFound, by simpa using isClass⟩
  interfaces := by
    intro type declaration interface found implemented
    obtain ⟨inside, rfl⟩ := Array.getElem?_eq_some_iff.mp found
    exact (interfaces ⟨type.index, inside⟩ interface implemented).2
  acyclic := by
    refine acyclic_of_falling Ty.index fun {lower upper} above => ?_
    obtain ⟨declaration, found, linked⟩ := declared_of_above above
    obtain ⟨inside, rfl⟩ := Array.getElem?_eq_some_iff.mp found
    rcases linked with isParent | implemented
    · exact (parents ⟨lower.index, inside⟩ upper isParent).1
    · exact (interfaces ⟨lower.index, inside⟩ upper implemented).1

theorem declared_upper (wellFormed : hierarchy.WellFormed) {lower upper : Ty}
    (above : hierarchy.Above lower upper) :
    ∃ declaration, hierarchy.find? upper = some declaration ∧ declaration.isSealed = false := by
  obtain ⟨declaration, found, isParent | implemented⟩ := declared_of_above above
  · obtain ⟨upperDeclaration, upperFound, _, notSealed⟩ :=
      wellFormed.parents lower declaration upper found isParent
    exact ⟨upperDeclaration, upperFound, notSealed⟩
  · obtain ⟨upperDeclaration, upperFound, isInterface⟩ := declared_of_isInterface
      (wellFormed.interfaces lower declaration upper found implemented)
    exact ⟨upperDeclaration, upperFound,
      ((declares_of_made wellFormed.made upperFound).interface isInterface).2⟩

theorem eq_of_isSealed (wellFormed : hierarchy.WellFormed) {sub super : Ty}
    (path : Relation.ReflTransGen hierarchy.Above sub super)
    (isSealed : hierarchy.isSealed super = true) : sub = super := by
  cases path with
  | refl => rfl
  | tail _ above =>
      obtain ⟨declaration, found, notSealed⟩ := wellFormed.declared_upper above
      unfold Hierarchy.isSealed at isSealed
      simp [found, notSealed] at isSealed

theorem eq_of_unknown (wellFormed : hierarchy.WellFormed) {sub super : Ty}
    (path : Relation.ReflTransGen hierarchy.Above sub super)
    (unknown : hierarchy.find? super = none) : sub = super := by
  cases path with
  | refl => rfl
  | tail _ above =>
      obtain ⟨declaration, found, _⟩ := wellFormed.declared_upper above
      rw [unknown] at found
      contradiction

def Extends (hierarchy : Hierarchy) (type parent : Ty) : Prop :=
  ∃ declaration, hierarchy.find? type = some declaration ∧ declaration.parent = some parent

theorem extends_unique : Relator.RightUnique (Extends hierarchy) := by
  rintro type first second ⟨declaration, found, isParent⟩ ⟨other, otherFound, otherParent⟩
  obtain rfl := Option.some.inj (found.symm.trans otherFound)
  exact Option.some.inj (isParent.symm.trans otherParent)

/-- Only classes lead to classes other than the root. -/
theorem extends_of_path (wellFormed : hierarchy.WellFormed) {sub super : Ty}
    (path : Relation.ReflTransGen hierarchy.Above sub super) {declaration : TypeDeclaration}
    (found : hierarchy.find? super = some declaration) (isClass : declaration.kind ≠ .interface) :
    super = object ∨ Relation.ReflTransGen (Extends hierarchy) sub super := by
  induction path using Relation.ReflTransGen.head_induction_on with
  | refl => exact Or.inr .refl
  | @head lower middle above _ ih =>
      rcases ih with isRoot | chain
      · exact Or.inl isRoot
      · obtain ⟨lowerDeclaration, lowerFound, isParent | implemented⟩ := declared_of_above above
        · exact Or.inr (chain.head ⟨lowerDeclaration, lowerFound, isParent⟩)
        · obtain ⟨interface, interfaceFound, isInterface⟩ := declared_of_isInterface
            (wellFormed.interfaces lower lowerDeclaration middle lowerFound implemented)
          rcases chain.cases_head with rfl | ⟨next, ⟨other, otherFound, nextParent⟩, rest⟩
          · obtain rfl := Option.some.inj (found.symm.trans interfaceFound)
            exact absurd isInterface isClass
          · obtain rfl := Option.some.inj (interfaceFound.symm.trans otherFound)
            have rootParent := ((declares_of_made wellFormed.made interfaceFound).interface isInterface).1
            obtain rfl := Option.some.inj (rootParent.symm.trans nextParent)
            rcases rest.cases_head with rfl | ⟨_, ⟨root, rootFound, rootExtends⟩, _⟩
            · exact Or.inl rfl
            · rw [((declares_of_made wellFormed.made rootFound).root rfl).1] at rootExtends
              contradiction

theorem below_object (wellFormed : hierarchy.WellFormed) {type : Ty} {declaration : TypeDeclaration}
    (found : hierarchy.find? type = some declaration) :
    Relation.ReflTransGen hierarchy.Above type object := by
  induction type using (wellFounded_above wellFormed.acyclic).induction generalizing declaration with
  | _ type ih =>
      by_cases isRoot : type = object
      · rw [isRoot]
      · obtain ⟨parent, isParent⟩ := Option.isSome_iff_exists.mp
          ((declares_of_made wellFormed.made found).parent isRoot)
        have above := above_of_declared found (Or.inl isParent)
        obtain ⟨_, parentFound, _⟩ := wellFormed.parents _ _ _ found isParent
        exact .head above (ih parent above parentFound)

theorem related_of_common (wellFormed : hierarchy.WellFormed) {sub first second : Ty}
    (firstAbove : Relation.ReflTransGen hierarchy.Above sub first)
    (secondAbove : Relation.ReflTransGen hierarchy.Above sub second)
    {firstDeclaration secondDeclaration : TypeDeclaration}
    (firstFound : hierarchy.find? first = some firstDeclaration)
    (secondFound : hierarchy.find? second = some secondDeclaration)
    (firstClass : firstDeclaration.kind ≠ .interface)
    (secondClass : secondDeclaration.kind ≠ .interface) :
    Relation.ReflTransGen hierarchy.Above first second ∨
      Relation.ReflTransGen hierarchy.Above second first := by
  rcases wellFormed.extends_of_path firstAbove firstFound firstClass with rfl | firstChain
  · exact Or.inr (wellFormed.below_object secondFound)
  · rcases wellFormed.extends_of_path secondAbove secondFound secondClass with rfl | secondChain
    · exact Or.inl (wellFormed.below_object firstFound)
    · have lift : ∀ lower upper, Extends hierarchy lower upper → hierarchy.Above lower upper :=
        fun _ _ ⟨_, found, isParent⟩ => above_of_declared found (Or.inl isParent)
      rcases Relation.ReflTransGen.total_of_right_unique extends_unique firstChain secondChain with
        up | down
      · exact Or.inl (up.lift id lift)
      · exact Or.inr (down.lift id lift)

end WellFormed

theorem instance_iff {primitives : PrimitiveTypes} {value : Value} {type : Ty} :
    (hierarchy.typing primitives).isInstance value type = true ↔
      value.isNull = false ∧ ∃ actual, primitives.typeOf value = some actual ∧
        Relation.ReflTransGen hierarchy.Above actual type := by
  simp only [Typing.isInstance, typing, Bool.and_eq_true, Bool.not_eq_true', Option.any_eq_true,
    isSubtype_iff]

theorem classify_eq_always {source target : Ty} :
    hierarchy.classify source target = .always ↔ hierarchy.isSubtype source target = true := by
  unfold classify
  split
  · rename_i below
    exact ⟨fun _ => below, fun _ => rfl⟩
  · rename_i notBelow
    refine ⟨fun always => ?_, fun below => absurd below notBelow⟩
    split at always
    · contradiction
    · split at always <;> contradiction

/-- A conversion never succeeds between types apart, each of which is sealed
where the other is an interface. -/
theorem apart_of_classify_never {source target : Ty}
    (never : hierarchy.classify source target = .never) :
    hierarchy.isSubtype source target = false ∧ hierarchy.isSubtype target source = false ∧
      (hierarchy.isInterface source = true → hierarchy.isSealed target = true) ∧
      (hierarchy.isInterface target = true → hierarchy.isSealed source = true) := by
  unfold classify at never
  split at never
  · contradiction
  · rename_i notBelow
    split at never
    · contradiction
    · rename_i notAbove
      split at never
      · contradiction
      · rename_i decided
        simp only [Bool.not_eq_true, Bool.or_eq_false_iff, Bool.and_eq_false_iff,
          Bool.not_eq_false'] at notBelow notAbove decided
        refine ⟨notBelow, notAbove, fun isInterface => ?_, fun isInterface => ?_⟩
        · exact decided.1.resolve_left (by simp [isInterface])
        · exact decided.2.resolve_left (by simp [isInterface])

theorem WellFormed.not_below_of_never (wellFormed : hierarchy.WellFormed) {sub source target : Ty}
    (never : hierarchy.classify source target = .never)
    (path : Relation.ReflTransGen hierarchy.Above sub source) :
    ¬ Relation.ReflTransGen hierarchy.Above sub target := by
  intro otherPath
  obtain ⟨notBelow, notAbove, sourceSide, targetSide⟩ := apart_of_classify_never never
  rw [← Bool.not_eq_true, isSubtype_iff] at notBelow notAbove
  -- a sealed or unknown type has nothing but itself below it
  by_cases sourceSealed : hierarchy.isSealed source = true
  · exact notBelow (wellFormed.eq_of_isSealed path sourceSealed ▸ otherPath)
  · by_cases targetSealed : hierarchy.isSealed target = true
    · exact notAbove (wellFormed.eq_of_isSealed otherPath targetSealed ▸ path)
    · cases sourceFound : hierarchy.find? source with
      | none => exact notBelow (wellFormed.eq_of_unknown path sourceFound ▸ otherPath)
      | some sourceDeclaration =>
          cases targetFound : hierarchy.find? target with
          | none => exact notAbove (wellFormed.eq_of_unknown otherPath targetFound ▸ path)
          | some targetDeclaration =>
              have sourceClass : sourceDeclaration.kind ≠ .interface := fun isInterface =>
                targetSealed (sourceSide (by simp [Hierarchy.isInterface, sourceFound, isInterface]))
              have targetClass : targetDeclaration.kind ≠ .interface := fun isInterface =>
                sourceSealed (targetSide (by simp [Hierarchy.isInterface, targetFound, isInterface]))
              rcases wellFormed.related_of_common path otherPath sourceFound targetFound
                sourceClass targetClass with up | down
              · exact notBelow up
              · exact notAbove down

theorem WellFormed.sound (wellFormed : hierarchy.WellFormed) (primitives : PrimitiveTypes) :
    hierarchy.oracle.SoundFor (hierarchy.typing primitives) where
  always := by
    intro source target value always isInstance
    obtain ⟨notNull, actual, typed, path⟩ := instance_iff.mp isInstance
    have onward := isSubtype_iff.mp (classify_eq_always.mp always)
    exact instance_iff.mpr ⟨notNull, actual, typed, path.trans onward⟩
  never := by
    intro source target value never isInstance
    by_contra isTarget
    obtain ⟨_, actual, typed, path⟩ := instance_iff.mp isInstance
    obtain ⟨_, other, otherTyped, otherPath⟩ := instance_iff.mp (by simpa using isTarget)
    obtain rfl := Option.some.inj (typed.symm.trans otherTyped)
    exact wellFormed.not_below_of_never never path otherPath

/-- What is said about a conversion is so for all types below its source, and
so for all values of its source, whatever types primitive values report. -/
theorem WellFormed.classify_sound (wellFormed : hierarchy.WellFormed) :
    (∀ source target, hierarchy.classify source target = .always ↔
      ∀ sub, hierarchy.isSubtype sub source = true → hierarchy.isSubtype sub target = true) ∧
    (∀ source target, hierarchy.classify source target = .never →
      ∀ sub, hierarchy.isSubtype sub source = true → hierarchy.isSubtype sub target = false) ∧
    ∀ primitives value source target,
      (hierarchy.typing primitives).isInstance value source = true →
        (hierarchy.classify source target = .always →
          (hierarchy.typing primitives).isInstance value target = true) ∧
        (hierarchy.classify source target = .never →
          (hierarchy.typing primitives).isInstance value target = false) := by
  refine ⟨fun source target => ?_, fun source target never sub below => ?_,
    fun primitives value source target isInstance => ?_⟩
  · rw [classify_eq_always]
    simp only [isSubtype_iff]
    exact ⟨fun onward sub below => below.trans onward, fun all => all source .refl⟩
  · rw [← Bool.not_eq_true, isSubtype_iff]
    exact wellFormed.not_below_of_never never (isSubtype_iff.mp below)
  · have sound := wellFormed.sound primitives
    exact ⟨fun always => sound.always source target value always isInstance,
      fun never => sound.never source target value never isInstance⟩

/-- Circles are shapes that can be drawn and filled, and nothing can be declared
below them, so they are never closed. -/
def figures : Hierarchy :=
  (((((((Hierarchy.empty.addInterface "Drawable").2.addInterface "Filled").2.implement ⟨2⟩
    ⟨1⟩).addClass "Shape" none).2.implement ⟨3⟩ ⟨1⟩).addSealedClass "Circle" (some ⟨3⟩)).2.implement
      ⟨4⟩ ⟨2⟩).addInterface "Closed" |>.2

theorem wellFormed_figures : figures.WellFormed :=
  .of_descending (.addInterface "Closed" (.implement ⟨4⟩ ⟨2⟩ (.addSealedClass "Circle" (some ⟨3⟩)
    (.implement ⟨3⟩ ⟨1⟩ (.addClass "Shape" none (.implement ⟨2⟩ ⟨1⟩ (.addInterface "Filled"
      (.addInterface "Drawable" .empty)))))))) (by decide) (by decide)

theorem classify_sound_figures :
    figures.WellFormed ∧
      (figures.classify ⟨2⟩ ⟨1⟩ = .always ∧ figures.isSubtype ⟨4⟩ ⟨2⟩ = true ∧
        figures.isSubtype ⟨4⟩ ⟨1⟩ = true) ∧
      (figures.classify ⟨3⟩ ⟨9⟩ = .never ∧ figures.isSubtype ⟨4⟩ ⟨3⟩ = true ∧
        figures.isSubtype ⟨4⟩ ⟨9⟩ = false) ∧
      (figures.classify ⟨4⟩ ⟨5⟩ = .never ∧
        (figures.typing {}).isInstance (.bare ⟨4⟩) ⟨4⟩ = true ∧
        (figures.typing {}).isInstance (.bare ⟨4⟩) ⟨5⟩ = false) := by
  obtain ⟨always, never, instances⟩ := wellFormed_figures.classify_sound
  have upward : figures.classify ⟨2⟩ ⟨1⟩ = .always := by decide
  have unknown : figures.classify ⟨3⟩ ⟨9⟩ = .never := by decide
  have apart : figures.classify ⟨4⟩ ⟨5⟩ = .never := by decide
  have isFilled : figures.isSubtype ⟨4⟩ ⟨2⟩ = true := by decide
  have isShape : figures.isSubtype ⟨4⟩ ⟨3⟩ = true := by decide
  have isCircle : (figures.typing {}).isInstance (.bare ⟨4⟩) ⟨4⟩ = true := by decide
  exact ⟨wellFormed_figures, ⟨upward, isFilled, (always _ _).mp upward _ isFilled⟩,
    ⟨unknown, isShape, never _ _ unknown _ isShape⟩,
    ⟨apart, isCircle, (instances {} (.bare ⟨4⟩) _ _ isCircle).2 apart⟩⟩

end Hierarchy

end MatchCompiler
