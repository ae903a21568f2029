import ScssLint.Proofs.Selector.Grammar
import ScssLint.Proofs.Selector.Places

/-! # What is read as a selector list

The reader goes through the pieces once. What it takes as one component holds nothing wrong, and
where it stops something is wrong for the first time (`SelectorList.reports_readComponent`). So it
reads the grammatical lists and names the first fault of any other (`SelectorList.reportsWhole`,
`SelectorList.parse_grammar`).
-/

namespace ScssLint

namespace SelectorList

open Css

/-- Whether nothing is wrong with the pieces from `low` on that stand in front of `high`. -/
def CleanBetween (pieces : List Piece) (low high : Nat) : Prop :=
  ∀ index place fault, Violates pieces (index :: place) fault → low ≤ index → high ≤ index

/-- Whether something is wrong behind the pieces in front of `low`, and nothing in front of it is. -/
def FirstFrom (pieces : List Piece) (low : Nat) (fault : SelectorFault) : Prop :=
  ∃ index place, Violates pieces (index :: place) fault ∧ low ≤ index ∧
    ∀ index' place' fault', Violates pieces (index' :: place') fault' → low ≤ index' →
      index :: place ≤ index' :: place'

/-- What a reader of the pieces from `low` on in front of `high` has to find out. -/
inductive Reports {α : Type} (pieces : List Piece) (low high : Nat) :
    Except SelectorFault α → Prop
  | ok {result : α} : CleanBetween pieces low high → Reports pieces low high (.ok result)
  | error {fault : SelectorFault} : FirstFrom pieces low fault →
      Reports pieces low high (.error fault)

/-- Whether reading a list tells whether and where something is wrong with it. -/
def ReportsWhole (pieces : List Piece) : Prop :=
  Reports pieces 0 (pieces.length + 1) (readSelectors true pieces)

section Order

variable {index index' : Nat} {place place' : List Nat}

theorem nil_le_place (place : List Nat) : [] ≤ place := by
  cases place with
  | nil => exact le_refl _
  | cons index place => exact le_of_lt .nil

theorem place_le_of_lt (less : index < index') : index :: place ≤ index' :: place' :=
  le_of_lt (.rel less)

theorem place_le (first : index ≤ index') (inner : index' = index → place ≤ place') :
    index :: place ≤ index' :: place' := by
  rcases Nat.lt_or_eq_of_le first with less | rfl
  · exact place_le_of_lt less
  · exact List.cons_le_cons _ (inner rfl)

end Order

section Ranges

variable {pieces before rest : List Piece} {piece : Piece} {low mid high : Nat}
  {fault : SelectorFault}

theorem CleanBetween.trans (first : CleanBetween pieces low mid)
    (second : CleanBetween pieces mid high) : CleanBetween pieces low high :=
  fun index place fault violates above =>
    second index place fault violates (first index place fault violates above)

theorem FirstFrom.behind (first : FirstFrom pieces mid fault) (front : low ≤ mid)
    (clean : CleanBetween pieces low mid) : FirstFrom pieces low fault := by
  obtain ⟨index, place, violates, above, least⟩ := first
  exact ⟨index, place, violates, Nat.le_trans front above,
    fun index' place' fault' violates' above' =>
      least index' place' fault' violates' (clean index' place' fault' violates' above')⟩

theorem Reports.behind {α : Type} {result : Except SelectorFault α}
    (reports : Reports pieces mid high result) (front : low ≤ mid)
    (clean : CleanBetween pieces low mid) : Reports pieces low high result := by
  cases reports with
  | ok behind => exact .ok (clean.trans behind)
  | error first => exact .error (first.behind front clean)

/-- A reader that stops at `mid` and the reader of what is behind it. -/
theorem Reports.bind {α β : Type} {result : Except SelectorFault α}
    {next : α → Except SelectorFault β} (reports : Reports pieces low mid result)
    (front : low ≤ mid) (later : ∀ value, result = .ok value → Reports pieces mid high (next value)) :
    Reports pieces low high (result.bind next) := by
  cases reports with
  | ok clean => exact (later _ rfl).behind front clean
  | error first => exact .error first

theorem Reports.map {α β : Type} {result : Except SelectorFault α}
    (reports : Reports pieces low high result) (change : α → β) :
    Reports pieces low high (result.map change) := by
  cases reports with
  | ok clean => exact .ok clean
  | error first => exact .error first

/-- What is wrong with a piece is wrong in front of everything behind it. -/
theorem firstFrom_of_violates (violates : Violates pieces [low] fault) :
    FirstFrom pieces low fault := by
  refine ⟨low, [], violates, Nat.le_refl _, fun index' place' fault' _ above => ?_⟩
  exact place_le above fun _ => nil_le_place place'

theorem firstFrom_of_sign (wrong : SignFault before piece rest fault) :
    FirstFrom (before ++ piece :: rest) before.length fault :=
  firstFrom_of_violates (.sign wrong)

/-- A piece with which nothing is wrong and that is no argument. -/
theorem cleanBetween_of_piece (before rest : List Piece)
    (sound : ∀ fault, ¬ SignFault before piece rest fault)
    (inside : IsArgument before piece → ∀ place fault, ¬ Violates piece.body.pieces place fault) :
    CleanBetween (before ++ piece :: rest) before.length (before.length + 1) := by
  intro index place fault violates above
  rcases Nat.lt_or_eq_of_le above with less | rfl
  · exact less
  · rcases violates.of_split rfl with ⟨_, wrong⟩ | ⟨isArgument, inner⟩
    · exact absurd wrong (sound fault)
    · exact absurd inner (inside isArgument place fault)

/-- What is wrong in an argument for the first time. -/
theorem firstFrom_of_argument (before rest : List Piece)
    (sound : ∀ fault, ¬ SignFault before piece rest fault)
    (isArgument : IsArgument before piece) (first : IsFirstViolation piece.body.pieces fault) :
    FirstFrom (before ++ piece :: rest) before.length fault := by
  obtain ⟨place, violates, least⟩ := first
  refine ⟨before.length, place, .argument isArgument violates, Nat.le_refl _,
    fun index' place' fault' violates' above => place_le above fun same => ?_⟩
  subst same
  rcases violates'.of_split rfl with ⟨_, wrong⟩ | ⟨_, inner⟩
  · exact absurd wrong (sound fault')
  · exact least place' fault' inner

theorem not_violates_of_cleanBetween (clean : CleanBetween pieces 0 (pieces.length + 1))
    (place : List Nat) (fault : SelectorFault) : ¬ Violates pieces place fault := by
  intro violates
  obtain ⟨index, inner, rfl, inside⟩ := violates.exists_index
  have outside := clean index inner fault violates (Nat.zero_le _)
  omega

theorem isFirstViolation_of_firstFrom (first : FirstFrom pieces 0 fault) :
    IsFirstViolation pieces fault := by
  obtain ⟨index, place, violates, _, least⟩ := first
  refine ⟨index :: place, violates, fun place' fault' violates' => ?_⟩
  obtain ⟨index', inner, rfl, _⟩ := violates'.exists_index
  exact least index' inner fault' violates' (Nat.zero_le _)

end Ranges

/-- Whether a token is none of those with which something can be wrong. -/
structure IsQuiet (token : Token) : Prop where
  dot : token ≠ .delim '.'
  percent : token ≠ .delim '%'
  colon : token ≠ .colon
  comma : token ≠ .comma

section Quiet

variable {before rest : List Piece} {piece : Piece}

theorem IsQuiet.sound (quiet : IsQuiet piece.token) (fault : SelectorFault) :
    ¬ SignFault before piece rest fault := by
  intro wrong
  cases wrong with
  | className is _ => exact quiet.dot is
  | placeholder is _ => exact quiet.percent is
  | pseudoClass is _ _ | pseudoElement is _ _ _ => exact quiet.colon is
  | segment is _ => exact quiet.comma is

theorem not_endsInColon_append {taken : List Piece}
    (noColon : ∀ piece ∈ taken, piece.token ≠ .colon) (front : ¬ EndsInColon before) :
    ¬ EndsInColon (before ++ taken) := by
  rintro ⟨last, isLast, isColon⟩
  cases taken with
  | nil =>
      rw [List.append_nil] at isLast
      exact front ⟨last, isLast, isColon⟩
  | cons piece taken =>
      rw [List.getLast?_append_of_ne_nil _ (List.cons_ne_nil _ _)] at isLast
      exact noColon last (List.mem_of_getLast? isLast) isColon

/-- Only behind a colon an argument can stand. -/
theorem IsArgument.endsInColon (isArgument : IsArgument before piece) : EndsInColon before := by
  obtain ⟨⟨front, colon, rfl, isColon, _⟩, _⟩ := isArgument
  exact ⟨colon, by rw [List.getLast?_concat]; rfl, isColon⟩

/-- Quiet pieces behind something else than a colon. -/
theorem cleanBetween_of_quiet {taken : List Piece} (rest : List Piece)
    (quiet : ∀ piece ∈ taken, IsQuiet piece.token) (front : ¬ EndsInColon before) :
    CleanBetween (before ++ (taken ++ rest)) before.length (before ++ taken).length := by
  induction taken generalizing before with
  | nil =>
      rw [List.append_nil]
      exact fun _ _ _ _ above => above
  | cons piece taken ih =>
      obtain ⟨own, others⟩ := List.forall_mem_cons.1 quiet
      have here : CleanBetween (before ++ piece :: (taken ++ rest)) before.length
          (before.length + 1) :=
        cleanBetween_of_piece before _ own.sound fun isArgument =>
          absurd isArgument.endsInColon front
      have later := ih others
        (not_endsInColon_append (List.forall_mem_singleton.2 own.colon) front)
      rw [List.length_append, List.length_singleton] at later
      rw [List.append_assoc, List.append_assoc] at later
      exact here.trans later

end Quiet

/-- Whether some pieces end, or a comma stands in front of them. -/
def StopsAtComma (tail : List Piece) : Prop :=
  ∀ comma ∈ tail.head?, comma.token = .comma

/-- Whether there are `count` pieces in front that are quiet. -/
structure TakesQuiet (pieces : List Piece) (count : Nat) : Prop where
  length : count ≤ pieces.length
  quiet : ∀ piece ∈ pieces.take count, IsQuiet piece.token

section Names

variable {pieces tail : List Piece} {count : Nat}

theorem isDelim_iff {sign : Char} {piece : Piece} :
    isDelim sign piece = true ↔ piece.token = .delim sign :=
  beq_iff_eq

theorem isCurlyBlock_iff {piece : Piece} :
    isCurlyBlock piece = true ↔ piece.token = .opening .curly :=
  beq_iff_eq

theorem TakesQuiet.zero (pieces : List Piece) : TakesQuiet pieces 0 :=
  ⟨Nat.zero_le _, List.forall_mem_nil _⟩

theorem TakesQuiet.cons {piece : Piece} (own : IsQuiet piece.token)
    (takes : TakesQuiet pieces count) : TakesQuiet (piece :: pieces) (count + 1) := by
  refine ⟨Nat.succ_le_succ takes.length, ?_⟩
  rw [List.take_succ_cons]
  exact List.forall_mem_cons.2 ⟨own, takes.quiet⟩

theorem IsQuiet.of_carriesOnName {piece : Piece} (carries : carriesOnName piece = true) :
    IsQuiet piece.token := by
  unfold carriesOnName at carries
  split at carries
  · rename_i isIdent
    rw [isIdent]
    constructor <;> exact fun same => Token.noConfusion same
  · rename_i isNumber
    rw [isNumber]
    constructor <;> decide
  · rename_i isDimension
    rw [isDimension]
    constructor <;> decide
  · exact Bool.noConfusion carries

theorem IsQuiet.of_slot {hash block : Piece}
    (slot : (isDelim '#' hash && isCurlyBlock block) = true) :
    IsQuiet hash.token ∧ IsQuiet block.token := by
  obtain ⟨isHash, isBlock⟩ := Bool.and_eq_true_iff.1 slot
  rw [isDelim_iff.1 isHash, isCurlyBlock_iff.1 isBlock]
  constructor <;> constructor <;> decide

/-- The interpolations behind a name, and what is between them, are quiet. -/
theorem takesQuiet_tailLength (pieces : List Piece) : TakesQuiet pieces (tailLength pieces) := by
  induction pieces using tailLength.induct with
  | case1 hash block slot =>
      obtain ⟨hashQuiet, blockQuiet⟩ := IsQuiet.of_slot slot
      rw [tailLength, if_pos slot]
      exact ((TakesQuiet.zero []).cons blockQuiet).cons hashQuiet
  | case2 hash block slot piece more carries ih =>
      obtain ⟨hashQuiet, blockQuiet⟩ := IsQuiet.of_slot slot
      rw [tailLength, if_pos slot]
      simp only [carries, ↓reduceIte]
      rw [Nat.add_comm 3]
      exact ((ih.cons (IsQuiet.of_carriesOnName carries)).cons blockQuiet).cons hashQuiet
  | case3 hash block slot piece more stops ih =>
      obtain ⟨hashQuiet, blockQuiet⟩ := IsQuiet.of_slot slot
      rw [tailLength, if_pos slot]
      simp only [stops, Bool.false_eq_true, ↓reduceIte]
      rw [Nat.add_comm 2]
      exact (ih.cons blockQuiet).cons hashQuiet
  | case4 hash block rest noSlot =>
      unfold tailLength
      rw [if_neg noSlot]
      exact TakesQuiet.zero _
  | case5 pieces short =>
      rw [tailLength]
      · exact TakesQuiet.zero _
      · exact short

/-- A name is read where one stands, and all of it is quiet. -/
theorem takesQuiet_of_nameLength? (named : nameLength? pieces = some count) :
    TakesQuiet pieces count ∧ StartsName (pieces ++ tail) := by
  unfold nameLength? at named
  split at named
  · cases named
  · rename_i piece rest
    split at named
    · rename_i name isIdent
      obtain rfl := Option.some.inj named
      refine ⟨?_, .inl ⟨name, isIdent⟩⟩
      rw [Nat.add_comm 1]
      refine (takesQuiet_tailLength rest).cons ?_
      rw [isIdent]
      constructor <;> exact fun same => Token.noConfusion same
    · rename_i isHash
      split at named
      · rename_i block more
        split at named
        · rename_i isBlock
          obtain rfl := Option.some.inj named
          have slot := Bool.and_eq_true_iff.2 ⟨isDelim_iff.2 isHash, isBlock⟩
          obtain ⟨hashQuiet, blockQuiet⟩ := IsQuiet.of_slot slot
          refine ⟨?_, .inr ⟨isHash, block, rfl, isCurlyBlock_iff.1 isBlock⟩⟩
          rw [Nat.add_comm 2]
          exact ((takesQuiet_tailLength more).cons blockQuiet).cons hashQuiet
        · cases named
      · cases named
    · cases named

/-- Where no name is read, none stands. -/
theorem not_startsName_of_nameLength? (stops : StopsAtComma tail)
    (unnamed : nameLength? pieces = none) : ¬ StartsName (pieces ++ tail) := by
  unfold nameLength? at unnamed
  intro starts
  split at unnamed
  · cases tail with
    | nil => exact starts
    | cons comma tail =>
        have isComma := stops comma rfl
        rcases starts with ⟨name, isIdent⟩ | ⟨isHash, _⟩
        · exact Token.noConfusion (isComma.symm.trans isIdent)
        · exact Token.noConfusion (isComma.symm.trans isHash)
  · rename_i piece rest
    split at unnamed
    · cases unnamed
    · rename_i isHash
      rcases starts with ⟨name, isIdent⟩ | ⟨_, block, isFirst, isBlock⟩
      · exact Token.noConfusion (isHash.symm.trans isIdent)
      · split at unnamed
        · rename_i first more
          obtain rfl := Option.some.inj isFirst
          rw [if_pos (isCurlyBlock_iff.2 isBlock)] at unnamed
          cases unnamed
        · have isComma := stops block isFirst
          exact Token.noConfusion (isComma.symm.trans isBlock)
    · rename_i noIdent noHash
      rcases starts with ⟨name, isIdent⟩ | ⟨isHash, _⟩
      · exact noIdent name isIdent
      · exact noHash isHash

theorem startsPseudoName_of_elementName? {name : Text} (named : elementName? pieces = some name) :
    ∃ piece more, pieces = piece :: more ∧
      (piece.token = .ident name ∨ piece.token = .function name) := by
  unfold elementName? at named
  split at named
  · cases named
  · rename_i piece more
    split at named
    · rename_i isIdent
      obtain rfl := Option.some.inj named
      exact ⟨piece, more, rfl, .inl isIdent⟩
    · rename_i isFunction
      obtain rfl := Option.some.inj named
      exact ⟨piece, more, rfl, .inr isFunction⟩
    · cases named

theorem not_startsPseudoName_of_stops (stops : StopsAtComma tail) : ¬ StartsPseudoName tail := by
  rintro ⟨comma, isFirst, name, isIdent | isFunction⟩
  · exact Token.noConfusion ((stops comma isFirst).symm.trans isIdent)
  · exact Token.noConfusion ((stops comma isFirst).symm.trans isFunction)

theorem not_startsPseudoName_of_elementName? (stops : StopsAtComma tail)
    (unnamed : elementName? pieces = none) : ¬ StartsPseudoName (pieces ++ tail) := by
  unfold elementName? at unnamed
  split at unnamed
  · exact not_startsPseudoName_of_stops stops
  · rename_i piece more
    rintro ⟨first, isFirst, name, isNamed⟩
    obtain rfl := Option.some.inj isFirst
    split at unnamed
    · cases unnamed
    · cases unnamed
    · rename_i noIdent noFunction
      rcases isNamed with isIdent | isFunction
      · exact noIdent name isIdent
      · exact noFunction name isFunction

end Names

section Components

variable {before rest tail : List Piece} {piece : Piece} {component : Component} {count : Nat}

/-- What a component that is read, or none, says about the pieces from its first one on. -/
inductive ReportsComponent (before : List Piece) (piece : Piece) (rest tail : List Piece) :
    Except SelectorFault (Component × Nat) → Prop
  | ok {component : Component} {count : Nat} : count ≤ rest.length →
      ¬ EndsInColon (before ++ piece :: rest.take count) →
      CleanBetween (before ++ piece :: (rest ++ tail)) before.length
        (before ++ piece :: rest.take count).length →
      ReportsComponent before piece rest tail (.ok (component, count))
  | error {fault : SelectorFault} :
      FirstFrom (before ++ piece :: (rest ++ tail)) before.length fault →
      ReportsComponent before piece rest tail (.error fault)

/-- A component whose sign has what it needs behind it, and what the component takes. -/
theorem ReportsComponent.of_takesQuiet (front : ¬ EndsInColon before)
    (noColon : piece.token ≠ .colon)
    (sound : ∀ fault, ¬ SignFault before piece (rest ++ tail) fault)
    (takes : TakesQuiet rest count) :
    ReportsComponent before piece rest tail (.ok (component, count)) := by
  have behind : ¬ EndsInColon (before ++ [piece]) :=
    not_endsInColon_append (List.forall_mem_singleton.2 noColon) front
  have own := cleanBetween_of_piece before (rest ++ tail) sound fun isArgument =>
    absurd isArgument.endsInColon front
  have taken := cleanBetween_of_quiet (rest.drop count ++ tail) takes.quiet behind
  rw [← List.append_assoc (rest.take count), List.take_append_drop, List.append_assoc,
    List.append_assoc, List.length_append, List.length_singleton] at taken
  refine .ok takes.length ?_ (own.trans taken)
  rw [List.append_cons]
  exact not_endsInColon_append (fun piece member => (takes.quiet piece member).colon) behind

theorem ReportsComponent.of_quiet (front : ¬ EndsInColon before) (own : IsQuiet piece.token)
    (takes : TakesQuiet rest count) :
    ReportsComponent before piece rest tail (.ok (component, count)) :=
  .of_takesQuiet front own.colon own.sound takes

/-- A dot or a percent sign, and the name behind it or none. -/
theorem reportsComponent_of_name {fault : SelectorFault} {named : Nat → Component}
    (stops : StopsAtComma tail) (front : ¬ EndsInColon before)
    (isSign : piece.token = .delim '.' ∧ fault = .missingClassName ∨
      piece.token = .delim '%' ∧ fault = .missingPlaceholderName) :
    ReportsComponent before piece rest tail
      (match nameLength? rest with
        | some count => .ok (named count, count)
        | none => .error fault) := by
  have isDelim : ∃ sign, piece.token = .delim sign := by
    rcases isSign with ⟨isDot, _⟩ | ⟨isPercent, _⟩
    · exact ⟨_, isDot⟩
    · exact ⟨_, isPercent⟩
  obtain ⟨sign, isDelim⟩ := isDelim
  have noColon : piece.token ≠ .colon := by
    rw [isDelim]
    exact Token.noConfusion
  cases name? : nameLength? rest with
  | some count =>
      obtain ⟨takes, starts⟩ := takesQuiet_of_nameLength? name?
      refine .of_takesQuiet front noColon (fun fault' wrong => ?_) takes
      cases wrong with
      | className _ unnamed | placeholder _ unnamed => exact unnamed starts
      | pseudoClass isColon _ _ | pseudoElement isColon _ _ _ => exact noColon isColon
      | segment isComma _ => exact Token.noConfusion (isDelim.symm.trans isComma)
  | none =>
      have unnamed := not_startsName_of_nameLength? stops name?
      rcases isSign with ⟨isDot, rfl⟩ | ⟨isPercent, rfl⟩
      · exact .error (firstFrom_of_sign (.className isDot unnamed))
      · exact .error (firstFrom_of_sign (.placeholder isPercent unnamed))

theorem takesQuiet_interpolation (rest : List Piece) :
    let block := if rest.head?.any isCurlyBlock then 1 else 0
    TakesQuiet rest (block + tailLength (rest.drop block)) := by
  intro block
  cases rest with
  | nil => exact TakesQuiet.zero []
  | cons piece rest =>
      by_cases isBlock : isCurlyBlock piece = true
      · have one : block = 1 := if_pos isBlock
        rw [one, Nat.add_comm]
        refine (takesQuiet_tailLength rest).cons ?_
        rw [isCurlyBlock_iff.1 isBlock]
        constructor <;> decide
      · have zero : block = 0 := if_neg isBlock
        rw [zero, Nat.zero_add]
        exact takesQuiet_tailLength (piece :: rest)

/-- A component that starts with no colon. -/
theorem reportsComponent_component (stops : StopsAtComma tail) (front : ¬ EndsInColon before)
    (noColon : piece.token ≠ .colon) (noComma : piece.token ≠ .comma) :
    ReportsComponent before piece rest tail (SelectorList.component piece rest) := by
  by_cases isDot : piece.token = .delim '.'
  · rw [SelectorList.component, isDot]
    exact reportsComponent_of_name stops front (.inl ⟨isDot, rfl⟩)
  by_cases isPercent : piece.token = .delim '%'
  · rw [SelectorList.component, isPercent]
    exact reportsComponent_of_name stops front (.inr ⟨isPercent, rfl⟩)
  have own : IsQuiet piece.token := ⟨isDot, isPercent, noColon, noComma⟩
  unfold SelectorList.component
  split
  case h_6 found => exact absurd found isDot
  case h_7 found => exact absurd found isPercent
  case h_8 => exact .of_quiet front own (takesQuiet_interpolation rest)
  case h_9 | h_10 => exact .of_quiet front own (takesQuiet_tailLength rest)
  all_goals exact .of_quiet front own (TakesQuiet.zero rest)

theorem exists_name_of_selectorFunction? {pieces : List Piece} {name : Text} {argument : Piece}
    (found : selectorFunction? pieces = some (name, argument)) :
    ∃ more, pieces = argument :: more ∧ argument.token = .function name ∧
      takesSelectors name = true := by
  unfold selectorFunction? at found
  split at found
  · cases found
  · rename_i first more
    split at found
    · rename_i isFunction
      split at found
      · rename_i takes
        cases found
        exact ⟨more, rfl, isFunction, takes⟩
      · cases found
    · cases found

theorem takesSelectors_of_selectorFunction? {first : Piece} {more : List Piece} {name : Text}
    (none : selectorFunction? (first :: more) = none) (isFunction : first.token = .function name) :
    takesSelectors name = false := by
  rw [selectorFunction?, isFunction] at none
  cases takes : takesSelectors name with
  | false => rfl
  | true =>
      simp only [takes, ↓reduceIte] at none
      cases none

/-- A colon with a name behind it. -/
theorem sound_of_startsPseudoName (isColon : piece.token = .colon) (starts : StartsPseudoName rest)
    (fault : SelectorFault) : ¬ SignFault before piece rest fault := by
  intro wrong
  cases wrong with
  | className other _ | placeholder other _ | segment other _ =>
      exact Token.noConfusion (isColon.symm.trans other)
  | pseudoClass _ unnamed _ => exact unnamed starts
  | pseudoElement _ double second _ =>
      subst double
      obtain ⟨first, isFirst, name, isNamed⟩ := starts
      obtain rfl := Option.some.inj isFirst
      rcases isNamed with isNamed | isNamed
      · exact Token.noConfusion (second.symm.trans isNamed)
      · exact Token.noConfusion (second.symm.trans isNamed)

theorem IsQuiet.of_pseudoName {name : Text}
    (isNamed : piece.token = .ident name ∨ piece.token = .function name) : IsQuiet piece.token := by
  rcases isNamed with isNamed | isNamed <;> rw [isNamed] <;> constructor <;> exact Token.noConfusion

theorem endsInColon_concat (isColon : piece.token = .colon) : EndsInColon (before ++ [piece]) :=
  ⟨piece, by rw [List.getLast?_concat]; rfl, isColon⟩

/-- Behind one colon there can be an argument. -/
theorem isArgument_concat {argument : Piece} {name : Text} (front : ¬ EndsInColon before)
    (isColon : piece.token = .colon) (isFunction : argument.token = .function name)
    (takes : takesSelectors name = true) : IsArgument (before ++ [piece]) argument :=
  ⟨⟨before, piece, rfl, isColon, front⟩, name, isFunction, takes⟩

/-- Behind two colons there is none. -/
theorem not_isArgument_of_double {argument : Piece} (front : EndsInColon before) :
    ¬ IsArgument (before ++ [piece]) argument := by
  rintro ⟨⟨front', colon, same, _, single⟩, _⟩
  obtain ⟨rfl, _⟩ := List.append_inj' same rfl
  exact single front

/-- A colon and the name behind it, in whose argument nothing is wrong. -/
theorem ReportsComponent.of_pseudoName {next : Piece} {more : List Piece} {name : Text}
    (isColon : piece.token = .colon) (front : ¬ EndsInColon before)
    (isNamed : next.token = .ident name ∨ next.token = .function name)
    (inside : IsArgument (before ++ [piece]) next →
      ∀ place fault, ¬ Violates next.body.pieces place fault) :
    ReportsComponent before piece (next :: more) tail (.ok (component, 1)) := by
  have own := cleanBetween_of_piece before (next :: (more ++ tail))
    (sound_of_startsPseudoName isColon ⟨next, rfl, name, isNamed⟩)
    fun isArgument => absurd isArgument.endsInColon front
  have named := cleanBetween_of_piece (before ++ [piece]) (more ++ tail)
    (IsQuiet.of_pseudoName isNamed).sound inside
  rw [List.append_assoc, List.length_append, List.length_singleton] at named
  refine .ok (Nat.succ_le_succ (Nat.zero_le _)) ?_ ?_
  · rintro ⟨last, isLast, lastColon⟩
    rw [List.getLast?_append_of_ne_nil _ (List.cons_ne_nil _ _)] at isLast
    obtain rfl := Option.some.inj isLast
    exact (IsQuiet.of_pseudoName isNamed).colon lastColon
  · rw [List.length_append]
    exact own.trans named

/-- Two colons and the name behind them. -/
theorem ReportsComponent.of_elementName {second element : Piece} {behind : List Piece}
    {name : Text} (isColon : piece.token = .colon) (front : ¬ EndsInColon before)
    (isSecond : second.token = .colon)
    (isNamed : element.token = .ident name ∨ element.token = .function name) :
    ReportsComponent before piece (second :: element :: behind) tail (.ok (component, 2)) := by
  have starts : StartsPseudoName (element :: (behind ++ tail)) := ⟨element, rfl, name, isNamed⟩
  have sound (fault : SelectorFault) :
      ¬ SignFault before piece (second :: element :: (behind ++ tail)) fault := by
    intro wrong
    cases wrong with
    | className other _ | placeholder other _ | segment other _ =>
        exact Token.noConfusion (isColon.symm.trans other)
    | pseudoClass _ _ single => exact single second rfl isSecond
    | pseudoElement _ double _ unnamed =>
        obtain ⟨_, rfl⟩ := List.cons.inj double
        exact unnamed starts
  have own := cleanBetween_of_piece before _ sound fun isArgument =>
    absurd isArgument.endsInColon front
  have next := cleanBetween_of_piece (before ++ [piece]) (element :: (behind ++ tail))
    (sound_of_startsPseudoName isSecond starts) fun isArgument => by
      obtain ⟨_, _, isFunction, _⟩ := isArgument
      exact Token.noConfusion (isSecond.symm.trans isFunction)
  have named := cleanBetween_of_piece (before ++ [piece] ++ [second]) (behind ++ tail)
    (IsQuiet.of_pseudoName isNamed).sound fun isArgument =>
      absurd isArgument (not_isArgument_of_double (endsInColon_concat isColon))
  rw [List.append_assoc, List.length_append, List.length_singleton] at next named
  rw [List.append_assoc, List.length_append, List.length_singleton] at named
  refine .ok (Nat.succ_le_succ (Nat.succ_le_succ (Nat.zero_le _))) ?_ ?_
  · rintro ⟨last, isLast, lastColon⟩
    rw [List.getLast?_append_of_ne_nil _ (List.cons_ne_nil _ _)] at isLast
    obtain rfl := Option.some.inj isLast
    exact (IsQuiet.of_pseudoName isNamed).colon lastColon
  · rw [List.length_append]
    exact (own.trans next).trans named

/-- A colon whose argument is no selector list. -/
theorem reportsComponent_pseudo (stops : StopsAtComma tail) (front : ¬ EndsInColon before)
    (isColon : piece.token = .colon) (none : selectorFunction? rest = none) :
    ReportsComponent before piece rest tail (pseudo rest) := by
  have noArgument {next : Piece} {more : List Piece} (same : rest = next :: more) :
      ¬ IsArgument (before ++ [piece]) next := by
    rintro ⟨_, name, isFunction, takes⟩
    subst same
    rw [takesSelectors_of_selectorFunction? none isFunction] at takes
    exact Bool.noConfusion takes
  unfold pseudo
  split
  · refine .error (firstFrom_of_sign (.pseudoClass isColon (not_startsPseudoName_of_stops stops)
      fun next isNext second => ?_))
    exact Token.noConfusion ((stops next isNext).symm.trans second)
  · rename_i next more
    split
    · rename_i isSecond
      cases name? : elementName? more with
      | none =>
          exact .error (firstFrom_of_sign (.pseudoElement isColon rfl isSecond
            (not_startsPseudoName_of_elementName? stops name?)))
      | some name =>
          obtain ⟨element, behind, rfl, isNamed⟩ := startsPseudoName_of_elementName? name?
          exact .of_elementName isColon front isSecond isNamed
    · rename_i name isIdent
      have read (component : Component) :
          ReportsComponent before piece (next :: more) tail (.ok (component, 1)) :=
        .of_pseudoName isColon front (.inl isIdent) fun isArgument => absurd isArgument (noArgument rfl)
      split
      · exact read _
      · exact read _
    · rename_i name isFunction
      exact .of_pseudoName isColon front (.inr isFunction) fun isArgument =>
        absurd isArgument (noArgument rfl)
    · rename_i noColon noIdent noFunction
      refine .error (firstFrom_of_sign (.pseudoClass isColon ?_ fun first isFirst second => ?_))
      · rintro ⟨first, isFirst, name, isNamed⟩
        obtain rfl := Option.some.inj isFirst
        rcases isNamed with isIdent | isFunction
        · exact noIdent name isIdent
        · exact noFunction name isFunction
      · obtain rfl := Option.some.inj isFirst
        exact noColon second

/-- **What is taken as one component holds nothing wrong.** If none is taken, something is wrong
there for the first time. -/
theorem reports_readComponent (stops : StopsAtComma tail) (front : ¬ EndsInColon before)
    (noComma : piece.token ≠ .comma)
    (nested : ∀ argument ∈ rest, ReportsWhole argument.body.pieces) :
    ReportsComponent before piece rest tail (readComponent piece rest) := by
  unfold readComponent
  by_cases isColon : piece.token = .colon
  · rw [if_pos isColon]
    cases isFunction : selectorFunction? rest with
    | none => exact reportsComponent_pseudo stops front isColon isFunction
    | some found =>
        obtain ⟨name, argument⟩ := found
        obtain ⟨more, rfl, named, takes⟩ := exists_name_of_selectorFunction? isFunction
        have inside : ReportsWhole argument.body.pieces := nested argument List.mem_cons_self
        unfold ReportsWhole at inside
        dsimp only
        cases read : readSelectors true argument.body.pieces with
        | ok list =>
            rw [read] at inside
            cases inside with
            | ok clean =>
              exact .of_pseudoName isColon front (.inr named) fun _ =>
                not_violates_of_cleanBetween clean
        | error fault =>
            rw [read] at inside
            cases inside with
            | error first =>
              have own := cleanBetween_of_piece before (argument :: (more ++ tail))
                (sound_of_startsPseudoName isColon ⟨argument, rfl, name, .inr named⟩)
                fun isArgument => absurd isArgument.endsInColon front
              have within := firstFrom_of_argument (before ++ [piece]) (more ++ tail)
                (IsQuiet.of_pseudoName (.inr named)).sound
                (isArgument_concat front isColon named takes) (isFirstViolation_of_firstFrom first)
              rw [List.append_assoc, List.length_append, List.length_singleton] at within
              exact .error (within.behind (Nat.le_succ _) own)
  · rw [if_neg isColon]
    exact reportsComponent_component stops front isColon noComma

end Components

section Lists

variable {before segment tail pieces : List Piece} {behindSimple first : Bool} {gap? : Option Nat}

theorem behindGap_ne_nil (gap? : Option Nat) (node : SelectorNode) : behindGap gap? node ≠ [] := by
  unfold behindGap
  split
  · exact List.cons_ne_nil _ _
  · split
    · exact List.cons_ne_nil _ _
    · exact List.cons_ne_nil _ _

/-- Nothing is read from white space only. -/
theorem readNodes_eq_nil_iff :
    readNodes behindSimple gap? segment = .ok [] ↔ ∀ piece ∈ segment, piece.token = .whitespace := by
  induction segment generalizing gap? with
  | nil =>
      rw [readNodes]
      exact ⟨fun _ => List.forall_mem_nil _, fun _ => rfl⟩
  | cons piece rest ih =>
      by_cases blank : piece.token = .whitespace
      · rw [readNodes, if_pos blank, ih, List.forall_mem_cons]
        exact ⟨fun others => ⟨blank, others⟩, fun both => both.2⟩
      · constructor
        · intro read
          obtain ⟨component, count, later, _, _, empty⟩ := exists_component blank read
          exact absurd (List.append_eq_nil_iff.1 empty.symm).1 (behindGap_ne_nil _ _)
        · intro all
          exact absurd (all piece List.mem_cons_self) blank

/-- **Reading the nodes of a selector finds the first fault in its segment.** -/
theorem reports_readNodes (behindSimple : Bool) (gap? : Option Nat) (stops : StopsAtComma tail)
    (front : ¬ EndsInColon before) (noComma : ∀ piece ∈ segment, piece.token ≠ .comma)
    (nested : ∀ piece ∈ segment, ReportsWhole piece.body.pieces) :
    Reports (before ++ (segment ++ tail)) before.length (before ++ segment).length
      (readNodes behindSimple gap? segment) := by
  induction segment using induct_drop generalizing behindSimple gap? before with
  | nil =>
      rw [readNodes, List.append_nil]
      exact .ok fun _ _ _ _ above => above
  | cons piece rest ih =>
    obtain ⟨here, others⟩ := List.forall_mem_cons.1 noComma
    obtain ⟨_, nestedRest⟩ := List.forall_mem_cons.1 nested
    by_cases blank : piece.token = .whitespace
    · have own : IsQuiet piece.token := by
        rw [blank]
        constructor <;> exact Token.noConfusion
      have clean := cleanBetween_of_quiet (rest ++ tail) (List.forall_mem_singleton.2 own) front
      have behind := ih 0 behindSimple
        (gap? <|> if behindSimple then some piece.start else none)
        (not_endsInColon_append (List.forall_mem_singleton.2 own.colon) front) others nestedRest
      rw [readNodes, if_pos blank]
      rw [List.drop_zero, List.append_assoc, List.append_assoc] at behind
      rw [List.length_append] at clean behind
      exact behind.behind (Nat.le_succ _) clean
    · have component := reports_readComponent stops front here nestedRest
      rw [readNodes_cons blank]
      generalize readComponent piece rest = read at component
      cases component with
      | error first => exact .error first
      | @ok component count enough ends clean =>
        have behind := ih count (!component.isCombinator) none ends
          (fun piece member => others piece (List.mem_of_mem_drop member))
          (fun piece member => nestedRest piece (List.mem_of_mem_drop member))
        have whole : piece :: rest.take count ++ rest.drop count = piece :: rest := by
          rw [List.cons_append, List.take_append_drop]
        rw [List.append_assoc, ← List.append_assoc (piece :: rest.take count), whole,
          List.append_assoc, whole] at behind
        have front : before.length ≤ (before ++ piece :: rest.take count).length := by
          rw [List.length_append]
          omega
        have nodes := (behind.behind front clean).map
          (behindGap gap? ⟨component, piece.start⟩ ++ ·)
        dsimp only
        generalize readNodes (!component.isCombinator) none (rest.drop count) = later at nodes ⊢
        cases later <;> exact nodes

/-- A segment that holds something does not leave a blank behind the last comma. -/
theorem not_endsBlank_append (filled : ∃ piece ∈ segment, piece.token ≠ .whitespace)
    (noComma : ∀ piece ∈ segment, piece.token ≠ .comma) : ¬ EndsBlank (before ++ segment) := by
  rintro ⟨front, blank, same, starts, all⟩
  obtain ⟨piece, member, dark⟩ := filled
  rcases List.append_eq_append_iff.1 same with ⟨inFront, rfl, rfl⟩ | ⟨inBlank, rfl, rfl⟩
  · rcases List.mem_append.1 member with inside | inside
    · cases last : inFront.getLast? with
      | none =>
          rw [List.getLast?_eq_none_iff.1 last] at inside
          exact List.not_mem_nil inside
      | some comma =>
          have isLast : comma ∈ (before ++ inFront).getLast? := by
            rw [List.getLast?_append, last]
            rfl
          exact noComma comma (List.mem_append_left _ (List.mem_of_getLast? last))
            (starts comma isLast)
    · exact dark (all piece inside)
  · exact dark (all piece (List.mem_append_right _ member))

/-- Whether pieces start a list, as `first` says, or stand behind a comma. -/
inductive StartsSegment : Bool → List Piece → Prop
  | first : StartsSegment true []
  | behind {front : List Piece} {comma : Piece} : comma.token = .comma →
      StartsSegment false (front ++ [comma])

theorem StartsSegment.not_endsInColon (starts : StartsSegment first before) :
    ¬ EndsInColon before := by
  rintro ⟨last, isLast, isColon⟩
  cases starts with
  | first => exact absurd isLast (Option.not_mem_none last)
  | behind isComma =>
      rw [List.getLast?_concat] at isLast
      obtain rfl := Option.some.inj isLast
      exact Token.noConfusion (isComma.symm.trans isColon)

theorem StartsSegment.endsBlank (starts : StartsSegment first before)
    (blank : ∀ piece ∈ segment, piece.token = .whitespace) : EndsBlank (before ++ segment) := by
  refine ⟨before, segment, rfl, fun comma isLast => ?_, blank⟩
  cases starts with
  | first => exact absurd isLast (Option.not_mem_none comma)
  | behind isComma =>
      rw [List.getLast?_concat] at isLast
      obtain rfl := Option.some.inj isLast
      exact isComma

/-- What is said of a list that ends blank. -/
theorem StartsSegment.endFault (starts : StartsSegment first before)
    (blank : ∀ piece ∈ segment, piece.token = .whitespace) :
    EndFault (before ++ segment) (if first then .emptySelector else .trailingComma) := by
  have ends := starts.endsBlank blank
  cases starts with
  | first => exact .only blank
  | @behind front comma isComma =>
      refine .last ⟨comma, ?_, isComma⟩ ends
      exact List.mem_append_left _ (List.mem_append_right _ List.mem_cons_self)

theorem exists_dark {selector : Selector} (read : readNodes behindSimple gap? segment = .ok selector)
    (written : selector ≠ []) : ∃ piece ∈ segment, piece.token ≠ .whitespace := by
  apply Classical.byContradiction
  intro none
  have blank : ∀ piece ∈ segment, piece.token = .whitespace := fun piece member =>
    Classical.byContradiction fun dark => none ⟨piece, member, dark⟩
  rw [readNodes_eq_nil_iff.2 blank] at read
  exact written (Except.ok.inj read).symm

theorem cleanBetween_of_end (sound : ∀ fault, ¬ EndFault pieces fault) :
    CleanBetween pieces pieces.length (pieces.length + 1) := by
  intro index place fault violates above
  rcases Nat.lt_or_eq_of_le above with less | rfl
  · exact less
  · exact absurd violates.of_length.2 (sound fault)

theorem sound_of_comma {comma : Piece} {rest : List Piece} (isComma : comma.token = .comma)
    (filled : ¬ EndsBlank before) (fault : SelectorFault) : ¬ SignFault before comma rest fault := by
  intro wrong
  cases wrong with
  | className other _ | placeholder other _ | pseudoClass other _ _ | pseudoElement other _ _ _ =>
      exact Token.noConfusion (isComma.symm.trans other)
  | segment _ blank => exact filled blank

theorem not_isArgument_of_comma {comma : Piece} (isComma : comma.token = .comma) :
    ¬ IsArgument before comma := by
  rintro ⟨_, _, isFunction, _⟩
  exact Token.noConfusion (isComma.symm.trans isFunction)

/-- The end behind a segment that was read. -/
theorem reports_end (starts : StartsSegment first before)
    (noComma : ∀ piece ∈ segment, piece.token ≠ .comma) {selector : Selector}
    (read : readNodes false none segment = .ok selector) :
    Reports (before ++ segment) (before ++ segment).length ((before ++ segment).length + 1)
      (match selector with
        | [] => .error (if first then .emptySelector else .trailingComma)
        | selector => Except.ok [selector]) := by
  cases selector with
  | nil =>
      have blank := readNodes_eq_nil_iff.1 read
      exact .error (firstFrom_of_violates (.ending (starts.endFault blank)))
  | cons node nodes =>
      have filled := exists_dark read (List.cons_ne_nil node nodes)
      exact .ok (cleanBetween_of_end fun fault wrong =>
        not_endsBlank_append filled noComma wrong.endsBlank)

/-- The comma behind a segment that was read, and the selectors behind it. -/
theorem reports_comma {comma : Piece} {behind : List Piece} {high : Nat}
    (starts : StartsSegment first before) (noComma : ∀ piece ∈ segment, piece.token ≠ .comma)
    (isComma : comma.token = .comma) {selector : Selector}
    (read : readNodes false none segment = .ok selector)
    (others : Reports (before ++ segment ++ comma :: behind) ((before ++ segment).length + 1) high
      (readSelectors false behind)) :
    Reports (before ++ segment ++ comma :: behind) (before ++ segment).length high
      (match selector with
        | [] => .error .emptySelectorInList
        | selector => (readSelectors false behind).map (selector :: ·)) := by
  cases selector with
  | nil =>
      have blank := readNodes_eq_nil_iff.1 read
      exact .error (firstFrom_of_sign (.segment isComma (starts.endsBlank blank)))
  | cons node nodes =>
      have filled := exists_dark read (List.cons_ne_nil node nodes)
      have clean := cleanBetween_of_piece (before ++ segment) behind
        (sound_of_comma isComma (not_endsBlank_append filled noComma))
        fun isArgument => absurd isArgument (not_isArgument_of_comma isComma)
      exact (others.behind (Nat.le_succ _) clean).map _

/-- **Reading the selectors between commas finds the first fault behind what is in front.** -/
theorem reports_readSelectors (starts : StartsSegment first before) (pieces : List Piece) :
    Reports (before ++ pieces) before.length ((before ++ pieces).length + 1)
      (readSelectors first pieces) := by
  induction pieces using induct_cut generalizing first before with
  | last segment noComma inside =>
      have noTail : StopsAtComma [] := fun comma none => absurd none (Option.not_mem_none comma)
      have nodes := reports_readNodes false none noTail starts.not_endsInColon noComma
        fun argument member => inside argument member .first
      rw [List.append_nil] at nodes
      have whole := nodes.bind (List.prefix_append before _).length_le fun selector read =>
        reports_end starts noComma read
      rw [readSelectors_of_noComma noComma]
      generalize readNodes false none segment = read at whole ⊢
      rcases read with fault | _ | _ <;> exact whole
  | comma segment comma behind noComma isComma inside later =>
      have stops : StopsAtComma (comma :: behind) := fun found isFirst =>
        Option.some.inj isFirst ▸ isComma
      have nodes := reports_readNodes false none stops starts.not_endsInColon noComma
        fun argument member => inside argument member .first
      have startsBehind : StartsSegment false (before ++ segment ++ [comma]) := .behind isComma
      have others := later startsBehind
      rw [List.append_assoc (before ++ segment), List.length_append,
        List.length_singleton, List.singleton_append] at others
      rw [← List.append_assoc] at nodes ⊢
      have whole := nodes.bind (List.prefix_append before _).length_le fun selector read =>
        reports_comma starts noComma isComma read others
      rw [readSelectors_of_comma noComma isComma]
      generalize readNodes false none segment = read at whole ⊢
      generalize readSelectors false behind = later at whole ⊢
      rcases read with fault | _ | _ <;> rcases later with fault | list <;> exact whole

/-- **Reading a list tells whether something is wrong with it, and what is wrong first.** -/
theorem reportsWhole (pieces : List Piece) : ReportsWhole pieces :=
  reports_readSelectors .first pieces

end Lists

section Whole

variable {pieces : List Piece} {fault : SelectorFault}

theorem exists_readSelectors_iff :
    (∃ list, readSelectors true pieces = .ok list) ↔
      ∀ place fault, ¬ Violates pieces place fault := by
  have reports := reportsWhole pieces
  unfold ReportsWhole at reports
  generalize readSelectors true pieces = read at reports ⊢
  cases reports with
  | ok clean => exact iff_of_true ⟨_, rfl⟩ (not_violates_of_cleanBetween clean)
  | error first =>
      obtain ⟨index, place, violates, _⟩ := first
      refine iff_of_false ?_ fun nothing => nothing _ _ violates
      rintro ⟨_, same⟩
      cases same

theorem readSelectors_eq_error_iff :
    readSelectors true pieces = .error fault ↔ IsFirstViolation pieces fault := by
  have reports := reportsWhole pieces
  unfold ReportsWhole at reports
  generalize readSelectors true pieces = read at reports ⊢
  cases reports with
  | ok clean =>
      refine iff_of_false (fun same => by cases same) ?_
      rintro ⟨place, violates, _⟩
      exact not_violates_of_cleanBetween clean _ _ violates
  | error found =>
      have first := isFirstViolation_of_firstFrom found
      exact ⟨fun same => Except.error.inj same ▸ first, fun other => by rw [first.unique other]⟩

end Whole

theorem parse_eq_error_iff {text : Text} {error : InvalidSelector} :
    parse text = .error error ↔
      error.text = Text.trim text ∧
        readSelectors true (Forest.ofText text).pieces = .error error.fault := by
  rw [parse, ofText]
  cases readSelectors true (Forest.ofText text).pieces with
  | error fault =>
      constructor
      · intro same
        obtain rfl := Except.error.inj same
        exact ⟨rfl, rfl⟩
      · obtain ⟨trimmed, found⟩ := error
        rintro ⟨rfl, same⟩
        obtain rfl := Except.error.inj same
        rfl
  | ok list =>
      constructor
      · intro same
        change Except.ok _ = _ at same
        cases same
      · rintro ⟨_, same⟩
        cases same

/-- **The grammatical lists are those that are read, and the error names the first fault of any
other**, with the trimmed text that is no selector list, also in its message. -/
theorem parse_grammar (text : Text) :
    ((∃ list, parse text = .ok list) ↔ IsGrammatical (Forest.ofText text).pieces) ∧
      (∀ error, parse text = .error error ↔
        error.text = Text.trim text ∧ IsFirstViolation (Forest.ofText text).pieces error.fault) ∧
      ∀ error, parse text = .error error → error.message =
        s!"Invalid selector '{String.ofList (Text.trim text)}': {error.fault.message}" := by
  refine ⟨?_, fun error => ?_, fun error failed => ?_⟩
  · rw [isGrammatical_iff, ← exists_readSelectors_iff]
    exact exists_congr fun list => parse_eq_ok_iff
  · rw [parse_eq_error_iff, readSelectors_eq_error_iff]
  · have same := (parse_eq_error_iff.1 failed).1
    unfold InvalidSelector.message
    rw [same]

end SelectorList

end ScssLint
