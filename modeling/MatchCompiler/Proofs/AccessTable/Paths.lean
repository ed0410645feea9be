import MatchCompiler.Proofs.AccessTable.Interning

/-!
# Paths tell temps apart

A table that is only asked about what it holds grows upwards: an access is
entered after its input, and a temp after the access that fills it. The way back
from a temp therefore comes to the match input. Since nothing is entered twice,
the way tells the temp, even where its accesses are known by what they do and not
by their numbers.
-/

set_option autoImplicit false

namespace MatchCompiler

def Inquiry.SupportedBy (table : AccessTable) : Inquiry → Prop
  | .access input _ => (table.temp? input).isSome = true
  | .output source _ _ => (table.access? source).isSome = true

/-- One access of a path without its number: the type of its input, what it does,
and which output is taken. -/
structure Leg where
  type : Ty
  kind : AccessKind
  output : Nat
deriving DecidableEq, Repr

/-- The path to a temp without the numbers of accesses and temps, and the type that
the temp has itself. -/
structure Outline where
  legs : List Leg
  type : Ty
deriving DecidableEq, Repr

namespace AccessTable

/-- Inquiries in a row, each about what is in the table by then. -/
def Supports (table : AccessTable) : List Inquiry → Prop
  | [] => True
  | inquiry :: rest => inquiry.SupportedBy table ∧ (table.answer inquiry).2.Supports rest

/-- The access is made on the first temp, and the second one is its output. -/
def Fills (table : AccessTable) (input : Temp) (made : Access) (output : Nat) (temp : Temp) : Prop :=
  ∃ kind type, table.access? made = some ⟨input, kind⟩ ∧
    table.temp? temp = some ⟨type, some made, output⟩

/-- Accesses that lead from one temp to another, each made on an output of the one
before it. -/
def Chain (table : AccessTable) : Temp → List (Access × Nat) → Temp → Prop
  | start, [], temp => start = temp
  | start, (made, output) :: rest, temp =>
      ∃ next, table.Fills start made output next ∧ table.Chain next rest temp

/-- Walks back from a temp and puts each access that it meets in front of the ones
behind it. No answer within that many rounds is `none`. -/
def retrace (table : AccessTable) :
    Nat → Option TempEntry → List (Access × Nat) → Option (List (Access × Nat))
  | 0, _, _ => none
  | rounds + 1, current, behind =>
      match current with
      | some ⟨_, some made, output⟩ =>
          table.retrace rounds ((table.access? made).bind fun entry => table.temp? entry.input)
            ((made, output) :: behind)
      | _ => some behind

def outline (table : AccessTable) (temp : Temp) : Outline where
  legs := (table.pathTo temp).filterMap fun (made, output) =>
    (table.access? made).map fun entry => ⟨table.typeOf entry.input, entry.kind, output⟩
  type := table.typeOf temp

/-! ## Tables that grow upwards -/

/-- A table in which every access has its input, and every temp but the match input
comes behind the input of the access that fills it. -/
structure Founded (table : AccessTable) : Prop where
  rooted : table.Rooted
  distinct : table.Distinct
  inputs : ∀ {made entry}, table.access? made = some entry →
    entry.input.index < table.temps.length
  root : ∀ {temp declared}, table.temp? temp = some declared → declared.source = none →
    temp = .root
  sources : ∀ {temp declared made}, table.temp? temp = some declared →
    declared.source = some made →
      ∃ entry, table.access? made = some entry ∧ entry.input.index < temp.index

variable {table : AccessTable}

theorem founded_ofInput (type : Ty) : (ofInput type).Founded where
  rooted := (lawful_ofInput type).rooted
  distinct := distinct_ofInput type
  inputs := by
    intro made entry known
    simp [access?, ofInput] at known
  root := by
    intro temp declared found _
    cases temp
    exact congrArg Temp.mk (Nat.lt_one_iff.mp (temp?_inside found))
  sources := by
    intro temp declared made found filledBy
    obtain ⟨entry, known, _⟩ := (lawful_ofInput type).sourced found filledBy
    simp [access?, ofInput] at known

theorem pathTo_of_unknown {temp : Temp} (unknown : table.temp? temp = none) :
    table.pathTo temp = [] := by
  unfold pathTo
  cases table.temps.length with
  | zero => rfl
  | succ fuel => simp only [pathWithin, unknown]

namespace Founded

theorem enter_access (founded : table.Founded) {entry : AccessEntry}
    (supported : entry.input.index < table.temps.length)
    (missing : table.accesses.idxOf? entry = none) : (table.enter (.access entry)).Founded where
  rooted := founded.rooted
  distinct := ⟨founded.distinct.temps, nodup_snoc founded.distinct.accesses missing⟩
  inputs := by
    intro made other known
    rcases getElem?_snoc_eq_some known with before | ⟨_, rfl⟩
    · exact founded.inputs before
    · exact supported
  root := founded.root
  sources := by
    intro temp declared made found filledBy
    obtain ⟨other, known, below⟩ := founded.sources found filledBy
    exact ⟨other, (table.grows_enter (.access entry)).access? known, below⟩

theorem enter_temp (founded : table.Founded) {entry : TempEntry} {made : Access}
    {access : AccessEntry} (filledBy : entry.source = some made)
    (supported : table.access? made = some access)
    (missing : table.temps.idxOf? entry = none) : (table.enter (.temp entry)).Founded where
  rooted := by
    obtain ⟨declared, found, noSource⟩ := founded.rooted
    exact ⟨declared, (table.grows_enter (.temp entry)).temp? found, noSource⟩
  distinct := ⟨nodup_snoc founded.distinct.temps missing, founded.distinct.accesses⟩
  inputs := by
    intro other known isKnown
    exact Nat.lt_of_lt_of_le (founded.inputs isKnown) (by simp [enter])
  root := by
    intro temp declared found noSource
    rcases getElem?_snoc_eq_some found with before | ⟨_, rfl⟩
    · exact founded.root before noSource
    · rw [filledBy] at noSource
      contradiction
  sources := by
    intro temp declared other found otherFills
    rcases getElem?_snoc_eq_some found with before | ⟨isNew, rfl⟩
    · exact founded.sources before otherFills
    · obtain rfl := Option.some.inj (filledBy.symm.trans otherFills)
      exact ⟨access, supported, isNew ▸ founded.inputs supported⟩

theorem answer (founded : table.Founded) {inquiry : Inquiry}
    (supported : inquiry.SupportedBy table) : (table.answer inquiry).2.Founded := by
  cases looked : table.number? inquiry.entry with
  | some number => rwa [answer_of_known looked]
  | none =>
      rw [answer_of_missing looked]
      cases inquiry with
      | access input kind =>
          obtain ⟨declared, found⟩ := Option.isSome_iff_exists.mp supported
          exact founded.enter_access (temp?_inside found) (Option.map_eq_none_iff.mp looked)
      | output source position type =>
          obtain ⟨entry, known⟩ := Option.isSome_iff_exists.mp supported
          exact founded.enter_temp rfl known (Option.map_eq_none_iff.mp looked)

theorem answerAll {inquiries : List Inquiry} : ∀ {table : AccessTable}, table.Founded →
    table.Supports inquiries → (table.answerAll inquiries).Founded := by
  induction inquiries with
  | nil => exact fun founded _ => founded
  | cons inquiry rest ih => exact fun founded supported => ih (founded.answer supported.1) supported.2

theorem root_or_filled (founded : table.Founded) {temp : Temp} {declared : TempEntry}
    (found : table.temp? temp = some declared) :
    temp = .root ∨ ∃ input made output, table.Fills input made output temp ∧
      input.index < temp.index ∧ (table.temp? input).isSome = true := by
  obtain ⟨type, source, output⟩ := declared
  cases source with
  | none => exact Or.inl (founded.root found rfl)
  | some made =>
      obtain ⟨⟨input, kind⟩, known, below⟩ := founded.sources found rfl
      have inside : input.index < table.temps.length := founded.inputs known
      exact Or.inr ⟨input, made, output, ⟨kind, type, known, found⟩, below,
        by simp [temp?, inside]⟩

/-- What is so for the match input, and goes from the input of each access to its
outputs, is so for every temp of the table. -/
theorem induction (founded : table.Founded) {motive : Temp → Prop} (root : motive .root)
    (onward : ∀ {input temp made output}, table.Fills input made output temp → motive input →
      motive temp) {temp : Temp} (known : (table.temp? temp).isSome = true) : motive temp := by
  induction indexEq : temp.index using Nat.strongRecOn generalizing temp with
  | _ index ih =>
      obtain ⟨declared, found⟩ := Option.isSome_iff_exists.mp known
      rcases founded.root_or_filled found with rfl | ⟨input, made, output, fills, below, inputKnown⟩
      · exact root
      · exact onward fills (ih input.index (indexEq ▸ below) inputKnown rfl)

/-! ## The way back -/

theorem pathWithin_succ (founded : table.Founded) : ∀ (fuel : Nat) {temp : Temp},
    temp.index ≤ fuel → table.pathWithin (fuel + 1) temp = table.pathWithin fuel temp := by
  intro fuel
  induction fuel with
  | zero =>
      intro temp below
      obtain rfl : temp = .root := by
        cases temp
        exact congrArg Temp.mk (Nat.le_zero.mp below)
      obtain ⟨⟨type, source, output⟩, found, noSource⟩ := founded.rooted
      obtain rfl : source = none := noSource
      simp only [pathWithin, found]
  | succ fuel ih =>
      intro temp below
      rw [pathWithin, pathWithin]
      split
      · rename_i type made output found
        obtain ⟨entry, known, lower⟩ := founded.sources found rfl
        simp only [known, ih (Nat.le_of_lt_succ (Nat.lt_of_lt_of_le lower below))]
      · rfl

theorem pathTo_root (founded : table.Founded) : table.pathTo .root = [] := by
  obtain ⟨⟨type, source, output⟩, found, noSource⟩ := founded.rooted
  obtain rfl : source = none := noSource
  unfold pathTo
  cases table.temps.length with
  | zero => rfl
  | succ fuel => simp only [pathWithin, found]

theorem pathTo_of_fills (founded : table.Founded) {input temp : Temp} {made : Access} {output : Nat}
    (fills : table.Fills input made output temp) :
    table.pathTo temp = table.pathTo input ++ [(made, output)] := by
  obtain ⟨kind, type, known, found⟩ := fills
  obtain ⟨entry, isKnown, below⟩ := founded.sources found rfl
  obtain rfl := Option.some.inj (known.symm.trans isKnown)
  have inside := temp?_inside found
  unfold pathTo
  obtain ⟨fuel, isSucc⟩ := Nat.exists_eq_succ_of_ne_zero (Nat.ne_zero_of_lt inside)
  have enough : input.index ≤ fuel := by
    dsimp only at below
    omega
  rw [isSucc, founded.pathWithin_succ fuel enough]
  simp only [pathWithin, found, known]

theorem retrace_eq (founded : table.Founded) {temp : Temp}
    (known : (table.temp? temp).isSome = true) :
    ∃ rounds, ∀ more behind, table.retrace (rounds + more) (table.temp? temp) behind =
      some (table.pathTo temp ++ behind) := by
  refine founded.induction (motive := fun temp => ∃ rounds, ∀ more behind,
    table.retrace (rounds + more) (table.temp? temp) behind = some (table.pathTo temp ++ behind))
    ?_ ?_ known
  · obtain ⟨⟨type, source, output⟩, found, noSource⟩ := founded.rooted
    obtain rfl : source = none := noSource
    refine ⟨1, fun more behind => ?_⟩
    rw [Nat.succ_add, found, founded.pathTo_root]
    rfl
  · rintro input temp made output fills ⟨rounds, walked⟩
    have isPath := founded.pathTo_of_fills fills
    obtain ⟨kind, type, known, found⟩ := fills
    refine ⟨rounds + 1, fun more behind => ?_⟩
    rw [Nat.succ_add, found, retrace, known, Option.bind_some, walked, isPath, List.append_assoc]
    rfl

end Founded

/-! ## Paths as chains -/

variable {start temp input other : Temp} {made making : Access} {output position : Nat}

theorem Fills.unique (fills : table.Fills input made output temp)
    (otherFills : table.Fills other making position temp) :
    input = other ∧ made = making ∧ output = position := by
  obtain ⟨kind, type, known, found⟩ := fills
  obtain ⟨otherKind, otherType, otherKnown, otherFound⟩ := otherFills
  obtain ⟨_, sameSource, sameOutput⟩ := TempEntry.mk.inj (Option.some.inj (found.symm.trans otherFound))
  obtain rfl := Option.some.inj sameSource
  obtain ⟨sameInput, _⟩ := AccessEntry.mk.inj (Option.some.inj (known.symm.trans otherKnown))
  exact ⟨sameInput, rfl, sameOutput⟩

theorem Rooted.not_fills (rooted : table.Rooted) : ¬ table.Fills input made output .root := by
  rintro ⟨kind, type, known, found⟩
  obtain ⟨declared, isRoot, noSource⟩ := rooted
  obtain rfl := Option.some.inj (found.symm.trans isRoot)
  contradiction

theorem chain_snoc {path : List (Access × Nat)} :
    table.Chain start (path ++ [(made, output)]) temp ↔
      ∃ input, table.Chain start path input ∧ table.Fills input made output temp := by
  induction path generalizing start with
  | nil => simp [Chain]
  | cons step rest ih =>
      obtain ⟨first, position⟩ := step
      simp only [List.cons_append, Chain, ih]
      constructor
      · rintro ⟨next, fills, input, chain, last⟩
        exact ⟨input, ⟨next, fills, chain⟩, last⟩
      · rintro ⟨input, ⟨next, fills, chain⟩, last⟩
        exact ⟨next, fills, input, chain, last⟩

/-- The path to a temp is the one chain that leads there from the match input. -/
theorem Founded.chain_iff (founded : table.Founded) (known : (table.temp? temp).isSome = true) :
    ∀ path, table.Chain .root path temp ↔ path = table.pathTo temp := by
  refine founded.induction
    (motive := fun temp => ∀ path, table.Chain .root path temp ↔ path = table.pathTo temp)
    ?_ ?_ known
  · intro path
    rw [founded.pathTo_root]
    rcases List.eq_nil_or_concat' path with rfl | ⟨front, ⟨made, output⟩, rfl⟩
    · exact iff_of_true rfl rfl
    · rw [chain_snoc]
      refine iff_of_false ?_ (by simp)
      rintro ⟨input, _, fills⟩
      exact founded.rooted.not_fills fills
  · intro input temp made output fills ih path
    rw [founded.pathTo_of_fills fills]
    rcases List.eq_nil_or_concat' path with rfl | ⟨front, ⟨making, position⟩, rfl⟩
    · refine iff_of_false ?_ (by simp)
      rintro rfl
      exact founded.rooted.not_fills fills
    · rw [chain_snoc]
      constructor
      · rintro ⟨other, chain, otherFills⟩
        obtain ⟨rfl, rfl, rfl⟩ := fills.unique otherFills
        rw [(ih front).mp chain]
      · intro same
        obtain ⟨rfl, sameStep⟩ := List.append_inj' same rfl
        obtain ⟨rfl, rfl⟩ := Prod.mk.inj (List.singleton_inj.mp sameStep)
        exact ⟨input, (ih _).mpr rfl, fills⟩

theorem Founded.pathTo_eq_nil_iff (founded : table.Founded)
    (known : (table.temp? temp).isSome = true) : table.pathTo temp = [] ↔ temp = .root := by
  rw [eq_comm, ← founded.chain_iff known]
  exact eq_comm

/-! ## Outlines -/

theorem Founded.outline_root (founded : table.Founded) :
    table.outline .root = ⟨[], table.typeOf .root⟩ := by
  rw [outline, founded.pathTo_root]
  rfl

theorem Founded.outline_of_fills (founded : table.Founded) {kind : AccessKind} {type : Ty}
    (known : table.access? made = some ⟨input, kind⟩)
    (found : table.temp? temp = some ⟨type, some made, output⟩) :
    table.outline temp = ⟨(table.outline input).legs ++ [⟨(table.outline input).type, kind, output⟩],
      type⟩ := by
  rw [outline, founded.pathTo_of_fills ⟨kind, type, known, found⟩, List.filterMap_append,
    typeOf_of_temp? found]
  simp [known, outline]

/-- The last leg tells the access, once the temp that it is made on is known, and
with its type the temp is told. -/
theorem Founded.outline_injective (founded : table.Founded)
    (known : (table.temp? temp).isSome = true) : ∀ second, (table.temp? second).isSome = true →
      table.outline temp = table.outline second → temp = second := by
  refine founded.induction (motive := fun temp => ∀ second, (table.temp? second).isSome = true →
    table.outline temp = table.outline second → temp = second) ?_ ?_ known
  · intro second secondKnown same
    obtain ⟨declared, found⟩ := Option.isSome_iff_exists.mp secondKnown
    rcases founded.root_or_filled found with rfl | ⟨input, made, output, ⟨kind, type, known, found⟩, _⟩
    · rfl
    · rw [founded.outline_root, founded.outline_of_fills known found] at same
      simp at same
  · rintro input temp made output ⟨kind, type, known, found⟩ ih second secondKnown same
    rw [founded.outline_of_fills known found] at same
    obtain ⟨declared, secondFound⟩ := Option.isSome_iff_exists.mp secondKnown
    rcases founded.root_or_filled secondFound with
      rfl | ⟨other, making, position, ⟨otherKind, otherType, otherKnown, otherFound⟩, _, isKnown⟩
    · rw [founded.outline_root] at same
      simp at same
    · rw [founded.outline_of_fills otherKnown otherFound] at same
      obtain ⟨sameLegs, rfl⟩ := Outline.mk.inj same
      obtain ⟨sameFront, sameLast⟩ := List.append_inj' sameLegs rfl
      obtain ⟨sameType, rfl, rfl⟩ := Leg.mk.inj (List.singleton_inj.mp sameLast)
      have sameInput : table.outline input = table.outline other := by
        rw [Outline.mk.injEq]
        exact ⟨sameFront, sameType⟩
      obtain rfl := ih other isKnown sameInput
      have sameAccess := founded.distinct.access_eq known
      rw [founded.distinct.access_eq otherKnown] at sameAccess
      obtain rfl := (Prod.mk.inj sameAccess).1
      have sameTemp := founded.distinct.output_eq found
      rw [founded.distinct.output_eq otherFound] at sameTemp
      exact (Prod.mk.inj sameTemp).1.symm

/-- In a table that begins with the match input and is only asked about what it
holds, the walk back from a temp comes to an end, with the one chain of accesses
that leads to the temp from the match input. Two temps are the same exactly if
their chains look the same: the same kinds of accesses, outputs and types, whatever
their numbers are. -/
theorem paths_identify (type : Ty) (inquiries : List Inquiry)
    (supported : (ofInput type).Supports inquiries) :
    let table := (ofInput type).answerAll inquiries
    (∀ temp, ∃ rounds, ∀ granted, rounds ≤ granted →
        table.retrace granted (table.temp? temp) [] = some (table.pathTo temp)) ∧
      (∀ temp, (table.temp? temp).isSome = true →
        (∀ path, table.Chain .root path temp ↔ path = table.pathTo temp) ∧
          (table.pathTo temp = [] ↔ temp = .root)) ∧
      ∀ first second, (table.temp? first).isSome = true → (table.temp? second).isSome = true →
        (table.outline first = table.outline second ↔ first = second) := by
  intro table
  have founded : table.Founded := (founded_ofInput type).answerAll supported
  refine ⟨fun temp => ?_, fun temp known => ?_, fun first second firstKnown secondKnown => ?_⟩
  · cases found : table.temp? temp with
    | some declared =>
        have known : (table.temp? temp).isSome = true := by simp [found]
        obtain ⟨rounds, walked⟩ := founded.retrace_eq known
        refine ⟨rounds, fun granted enough => ?_⟩
        obtain ⟨more, rfl⟩ := Nat.exists_eq_add_of_le enough
        rw [← found, walked, List.append_nil]
    | none =>
        refine ⟨1, fun granted enough => ?_⟩
        obtain ⟨more, rfl⟩ := Nat.exists_eq_add_of_le enough
        rw [Nat.succ_add, pathTo_of_unknown found]
        rfl
  · exact ⟨founded.chain_iff known, founded.pathTo_eq_nil_iff known⟩
  · exact ⟨founded.outline_injective firstKnown second secondKnown, fun same => by rw [same]⟩

/-- One output of a cast, entered at two types, and a field of the second. -/
def castInquiries : List Inquiry :=
  [.access .root (.cast ⟨1⟩), .output ⟨0⟩ 0 ⟨1⟩, .output ⟨0⟩ 0 ⟨2⟩, .access ⟨2⟩ (.field ⟨5⟩),
    .output ⟨1⟩ 0 ⟨1⟩, .output ⟨0⟩ 0 ⟨2⟩]

/-- The same access and output lead to both temps, which differ by their types. -/
theorem paths_identify_castInquiries :
    (ofInput Hierarchy.object).Supports castInquiries ∧
      let table := (ofInput Hierarchy.object).answerAll castInquiries
      (∃ rounds, ∀ granted, rounds ≤ granted →
        table.retrace granted (table.temp? ⟨3⟩) [] = some [(⟨0⟩, 0), (⟨1⟩, 0)]) ∧
      table.Chain .root [(⟨0⟩, 0), (⟨1⟩, 0)] ⟨3⟩ ∧
      table.pathTo ⟨1⟩ = table.pathTo ⟨2⟩ ∧ table.outline ⟨1⟩ ≠ table.outline ⟨2⟩ := by
  have supported : (ofInput Hierarchy.object).Supports castInquiries := by
    simp only [castInquiries, Supports, Inquiry.SupportedBy]
    decide
  obtain ⟨walks, chains, outlines⟩ := paths_identify Hierarchy.object castInquiries supported
  have isPath : ((ofInput Hierarchy.object).answerAll castInquiries).pathTo ⟨3⟩ =
      [(⟨0⟩, 0), (⟨1⟩, 0)] := by
    decide
  refine ⟨supported, isPath ▸ walks ⟨3⟩, ?_, by decide, ?_⟩
  · exact ((chains ⟨3⟩ (by decide)).1 _).mpr isPath.symm
  · exact mt (outlines ⟨1⟩ ⟨2⟩ (by decide) (by decide)).mp (by decide)

end AccessTable

end MatchCompiler
