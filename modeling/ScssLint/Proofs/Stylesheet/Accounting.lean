import ScssLint.Proofs.Stylesheet.Spans

/-! # Nothing is dropped silently

Every token of a block is white space, a comment or a semicolon between the statements of the block,
or stands inside exactly one of them, or belongs to a passage that is skipped with exactly one
warning (`Stylesheet.Accounted`). One induction on the division of the pieces shows it for a list of
pieces (`Outline.Divides.accounted`); another one, on the way down to a block
(`Stylesheet.ReadsBlock`), shows that the statements of every block are such a division
(`Stylesheet.ReadsBlock.isRead`).
-/

namespace ScssLint

open Css

/-- Whether a token stands inside a span. -/
def Css.Lexeme.IsWithin (lexeme : Lexeme) (span : Span) : Prop :=
  span.start ≤ lexeme.start ∧ lexeme.stop ≤ span.stop

/-- Whether a token stands in front of a span or behind it. -/
def Css.Lexeme.IsOutside (lexeme : Lexeme) (span : Span) : Prop :=
  lexeme.stop ≤ span.start ∨ span.stop ≤ lexeme.start

/-- The tokens that may stand between two statements. -/
def Css.Token.isFiller : Token → Bool
  | whitespace | comment | semicolon => true
  | _ => false

/-- Whether a statement can have a block from which statements are read; a declaration can if it has
no value. -/
def Statement.opensBlock : Statement → Bool
  | root => true
  | rule _ => true
  | atRule _ _ hasBlock => hasBlock
  | declaration _ value => value.isEmpty

namespace Stylesheet

/-- The blocks from which the children of the nodes are read: the whole text for the root, and for
any other node with a block the block that ends with it. -/
inductive ReadsBlock (source : Text) : Nat → Forest → Prop
  | whole : ReadsBlock source 0 (Forest.ofText (blankLineComments source))
  | inside {above child : Nat} {node : StyleNode} {forest : Forest} {front back : List Piece}
      {block : Piece} : ReadsBlock source above forest →
      child ∈ (ofText source).children above → (ofText source).get? child = some node →
      node.statement.opensBlock = true → forest.pieces = front ++ block :: back →
      Outline.IsBlockBehind front block → block.stop = node.span.stop →
      ReadsBlock source child block.body

/-- The ways in which a token of some pieces is accounted for by the statements read from them,
`children`, and by the warnings. -/
inductive Accounted (sheet : Stylesheet) (children : List Nat) (warned : ParseWarning → Prop)
    (pieces : List Piece) (lexeme : Lexeme) : Prop
  /-- It stands between statements. -/
  | between : lexeme.token.isFiller = true →
      (∀ child ∈ children, lexeme.IsOutside (sheet.span child)) →
      Accounted sheet children warned pieces lexeme
  /-- It stands inside exactly one statement. -/
  | inside (front : List Nat) (child : Nat) (back : List Nat) : children = front ++ child :: back →
      lexeme.IsWithin (sheet.span child) →
      (∀ other ∈ front ++ back, lexeme.IsOutside (sheet.span other)) →
      Accounted sheet children warned pieces lexeme
  /-- It belongs to a passage that is skipped with a warning. -/
  | skipped (front : List Piece) (first : Piece) (more back : List Piece) (found : ParseWarning) :
      pieces = front ++ first :: more ++ back → lexeme ∈ Outline.passage first more →
      Outline.Skips first more found → warned found →
      (∀ child ∈ children, lexeme.IsOutside (sheet.span child)) →
      Accounted sheet children warned pieces lexeme

namespace Accounted

variable {sheet : Stylesheet} {children : List Nat} {warned warned' : ParseWarning → Prop}
  {pieces : List Piece} {lexeme : Lexeme}

theorem mono (accounted : Accounted sheet children warned pieces lexeme)
    (more : ∀ found, warned found → warned' found) :
    Accounted sheet children warned' pieces lexeme := by
  cases accounted with
  | between filler outside => exact .between filler outside
  | inside front child back split within outside =>
      exact .inside front child back split within outside
  | skipped front first others back found split member skips isWarned outside =>
      exact .skipped front first others back found split member skips (more found isWarned) outside

/-- More pieces and more statements in front. -/
theorem behind (accounted : Accounted sheet children warned pieces lexeme) (start : List Piece)
    (older : List Nat) (outside : ∀ child ∈ older, lexeme.IsOutside (sheet.span child)) :
    Accounted sheet (older ++ children) warned (start ++ pieces) lexeme := by
  cases accounted with
  | between filler others => exact .between filler (List.forall_mem_append.2 ⟨outside, others⟩)
  | inside front child back split within others =>
      refine .inside (older ++ front) child back ?_ within ?_
      · rw [split, List.append_assoc]
      · rw [List.append_assoc]
        exact List.forall_mem_append.2 ⟨outside, others⟩
  | skipped front first more back found split member skips isWarned others =>
      refine .skipped (start ++ front) first more back found ?_ member skips isWarned
        (List.forall_mem_append.2 ⟨outside, others⟩)
      rw [split, List.append_assoc, List.append_assoc, List.append_assoc]

end Accounted

end Stylesheet

namespace Outline

open Stylesheet (Accounted)

section Accounting

variable {sheet : Stylesheet} {text : Text}

/-- A token of a statement belongs to a comment in front of it or to the statement itself. -/
theorem of_mem_statement {first : Piece} {more : List Piece} {low high : Nat} {lexeme : Lexeme}
    (placed : ArePlaced text low (first :: more) high)
    (member : lexeme ∈ (first :: more).flatMap Piece.lexemes) :
    lexeme.token.isFiller = true ∧ lexeme.stop ≤ first.head.start ∨
      lexeme ∈ passage first more ∧ lexeme.IsWithin ⟨first.head.start, high⟩ := by
  have shape : (first :: more).flatMap Piece.lexemes = first.lead ++ passage first more := by
    rw [List.flatMap_cons, Piece.lexemes_eq, List.append_assoc, passage]
  obtain ⟨stands, sound⟩ := placed
  obtain ⟨_, _, own⟩ := stands_extent stands
  rw [shape] at stands member
  obtain ⟨mid, lead, behind⟩ := stands.split _
  have same : first.head.start = mid := by
    rw [passage, first.exists_own.choose_spec] at behind
    exact behind.start_eq
  rcases List.mem_append.1 member with inLead | inPassage
  · left
    rw [(sound first List.mem_cons_self).lead lexeme inLead, same]
    exact ⟨rfl, (lead.of_mem inLead).2.2⟩
  · right
    obtain ⟨start, _, stop⟩ := own.of_mem inPassage
    exact ⟨inPassage, start, stop⟩

theorem isFiller_of_mem_gap {piece : Piece} {low high : Nat} {lexeme : Lexeme}
    (gap : isGap piece = true) (placed : ArePlaced text low [piece] high)
    (member : lexeme ∈ [piece].flatMap Piece.lexemes) : lexeme.token.isFiller = true := by
  have sound := List.forall_mem_singleton.1 placed.sound
  rcases of_mem_statement placed member with ⟨filler, _⟩ | ⟨inPassage, _⟩
  · exact filler
  · rw [isGap, Bool.or_eq_true, beq_iff_eq, beq_iff_eq] at gap
    have single : piece.own = [piece.head] := by
      rcases gap with blank | ends
      · exact sound.own_of_opensNone (by rw [blank]; rfl)
      · exact sound.own_of_opensNone (by rw [ends]; rfl)
    rw [passage, single, List.flatMap_nil, List.append_nil, List.mem_singleton] at inPassage
    rw [inPassage]
    rcases gap with blank | ends
    · exact congrArg Token.isFiller blank
    · exact congrArg Token.isFiller ends

section Steps

variable {first : Piece} {more rest : List Piece} {outline : Outline} {low mid high above next : Nat}

/-- Later statements are no place for an earlier token. -/
theorem isOutside_later (divides : Divides rest outline) (placed : ArePlaced text mid rest high)
    (holds : sheet.Holds above next outline) {lexeme : Lexeme} (before : lexeme.stop ≤ mid) :
    ∀ child ∈ outline.childIds next, lexeme.IsOutside (sheet.span child) := fun child member =>
  .inl (Nat.le_trans before ((holds.siblings (divides.isPlaced placed)).1 child member).1)

/-- The tokens of a statement, in front of what is read behind it. -/
theorem accounted_statement {statement : Statement} {inside : Outline}
    {warned : ParseWarning → Prop} (own : ArePlaced text low (first :: more) mid)
    (holds : sheet.Holds above next (.node statement (extent first more) inside outline))
    (divides : Divides rest outline) (placed : ArePlaced text mid rest high)
    (later : ∀ lexeme ∈ rest.flatMap Piece.lexemes,
      Accounted sheet (outline.childIds (next + 1 + inside.count)) warned rest lexeme) :
    ∀ lexeme ∈ (first :: more ++ rest).flatMap Piece.lexemes,
      Accounted sheet ((node statement (extent first more) inside outline).childIds next) warned
        (first :: more ++ rest) lexeme := by
  obtain ⟨found, _, holdsRest⟩ := holds
  have span : sheet.span next = ⟨first.head.start, mid⟩ := by
    rw [Stylesheet.span_of_get? found]
    exact (stands_extent own.stands).2.1
  intro lexeme member
  rw [List.flatMap_append, List.mem_append] at member
  rcases member with inOwn | inRest
  · have before := (own.stands.of_mem inOwn).2.2
    have apart := isOutside_later divides placed holdsRest before
    rcases of_mem_statement own inOwn with ⟨filler, front⟩ | ⟨_, within⟩
    · refine .between filler (List.forall_mem_cons.2 ⟨?_, apart⟩)
      rw [span]
      exact .inl front
    · rw [← span] at within
      exact .inside [] next _ rfl within apart
  · refine (later lexeme inRest).behind (first :: more) [next]
      (List.forall_mem_singleton.2 ?_)
    rw [span]
    exact .inr (placed.stands.of_mem inRest).1

end Steps

/-- **The tokens of some pieces are accounted for.** -/
theorem Divides.accounted {pieces : List Piece} {outline : Outline}
    (divides : Divides pieces outline) {low high above next : Nat}
    (placed : ArePlaced text low pieces high) (holds : sheet.Holds above next outline) :
    ∀ lexeme ∈ pieces.flatMap Piece.lexemes,
      Accounted sheet (outline.childIds next) (· ∈ outline.warnings) pieces lexeme := by
  induction divides generalizing low high above next with
  | done => exact List.forall_mem_nil _
  | @gap piece rest _ isGap divides ih =>
      obtain ⟨mid, own, others⟩ := placed.split [piece]
      intro lexeme member
      rcases List.mem_append.1 member with inOwn | inRest
      · rw [← List.flatMap_singleton Piece.lexemes] at inOwn
        exact .between (isFiller_of_mem_gap isGap own inOwn)
          (isOutside_later divides others holds (own.stands.of_mem inOwn).2.2)
      · exact (ih others holds lexeme inRest).behind [piece] [] (List.forall_mem_nil _)
  | @skipped first more rest found _ skips divides ih =>
      obtain ⟨mid, own, others⟩ := placed.split (first :: more)
      intro lexeme member
      rw [List.flatMap_append, List.mem_append] at member
      rcases member with inOwn | inRest
      · have apart := isOutside_later divides others holds (own.stands.of_mem inOwn).2.2
        rcases of_mem_statement own inOwn with ⟨filler, _⟩ | ⟨inPassage, _⟩
        · exact .between filler apart
        · exact .skipped [] first more rest found rfl inPassage skips List.mem_cons_self apart
      · exact ((ih others holds lexeme inRest).mono fun _ => List.mem_cons_of_mem _).behind
          (first :: more) [] (List.forall_mem_nil _)
  | @line first more rest statement _ line divides ih =>
      obtain ⟨mid, own, others⟩ := placed.split (first :: more)
      exact accounted_statement own holds divides others (ih others holds.2.2)
  | @block first block more spaces rest statement _ _ header opens _ divides _ later =>
      obtain ⟨mid, own, others⟩ :=
        placed.split (first :: (more ++ spaces ++ [block]))
      refine accounted_statement own holds divides others fun lexeme member => ?_
      exact (later others holds.2.2 lexeme member).mono fun _ => List.mem_append_right _

end Accounting

end Outline

namespace Stylesheet

/-- The warnings of an outline stand in the order of their offsets. -/
theorem warnings_ascend {text : Text} {low high : Nat} {outline : Outline}
    (placed : outline.IsPlaced text low high) :
    (∀ found ∈ outline.warnings, low ≤ found.offset ∧ found.offset < high) ∧
      outline.warnings.Pairwise fun first second => first.offset < second.offset := by
  induction outline generalizing low high with
  | nil => exact ⟨List.forall_mem_nil _, .nil⟩
  | node statement span inside rest inner later =>
      obtain ⟨front, stands, within, behind⟩ := placed
      have nonempty := stands.start_lt_stop
      have before := behind.low_le_high
      obtain ⟨bounds, ordered⟩ := inner within
      obtain ⟨boundsLater, orderedLater⟩ := later behind
      refine ⟨fun found member => ?_, List.pairwise_append.2 ⟨ordered, orderedLater, ?_⟩⟩
      · rcases List.mem_append.1 member with member | member
        · have := bounds found member
          omega
        · have := boundsLater found member
          omega
      · intro first member second member'
        exact Nat.lt_of_lt_of_le (bounds first member).2 (boundsLater second member').1
  | warning warned rest later =>
      obtain ⟨front, behind⟩ := placed
      obtain ⟨bounds, ordered⟩ := later behind
      have before := behind.low_le_high
      refine ⟨List.forall_mem_cons.2 ⟨⟨front, before⟩, fun found member => ?_⟩,
        List.pairwise_cons.2 ⟨fun found member => (bounds found member).1, ordered⟩⟩
      have := bounds found member
      omega

/-- Whether `own` are the warnings at the offsets of a span. -/
structure AreWithin (span : Span) (own warnings : List ParseWarning) : Prop where
  all : ∀ found ∈ own, found ∈ warnings
  only : ∀ found ∈ warnings, span.start ≤ found.offset → found.offset < span.stop → found ∈ own

namespace AreWithin

variable {span : Span} {own warnings warnings' : List ParseWarning}

theorem refl (span : Span) (warnings : List ParseWarning) : AreWithin span warnings warnings :=
  ⟨fun _ member => member, fun _ member _ _ => member⟩

theorem trans (first : AreWithin span own warnings) (second : AreWithin span warnings warnings') :
    AreWithin span own warnings' :=
  ⟨fun found member => second.all found (first.all found member), fun found member start stop =>
    first.only found (second.only found member start stop) start stop⟩

theorem mono {part : Span} (within : AreWithin span own warnings) (start : span.start ≤ part.start)
    (stop : part.stop ≤ span.stop) : AreWithin part own warnings :=
  ⟨within.all, fun found member low high =>
    within.only found member (Nat.le_trans start low) (Nat.lt_of_lt_of_le high stop)⟩

theorem append_left (before : ∀ found ∈ own, found.offset < span.start) :
    AreWithin span warnings (own ++ warnings) := by
  refine ⟨fun _ => List.mem_append_right _, fun found member start _ => ?_⟩
  rcases List.mem_append.1 member with inFront | member
  · exact absurd start (Nat.not_le_of_gt (before found inFront))
  · exact member

theorem append_right (behind : ∀ found ∈ warnings, span.stop ≤ found.offset) :
    AreWithin span own (own ++ warnings) := by
  refine ⟨fun _ => List.mem_append_left _, fun found member _ stop => ?_⟩
  rcases List.mem_append.1 member with member | inBack
  · exact member
  · exact absurd stop (Nat.not_lt_of_ge (behind found inBack))

end AreWithin

/-- How the pieces `first :: taken`, with `behind` as their end in front of `rest`, were read as the
node with the number `child`, and what was warned of inside. -/
inductive StandsFor (sheet : Stylesheet) (warnings : List ParseWarning) (child : Nat)
    (node : StyleNode) (first : Piece) : (taken behind rest : List Piece) → Prop
  | lone {taken behind rest : List Piece} :
      Outline.IsLone first taken behind rest node.statement → node.children = [] →
      AreWithin node.span [] warnings → StandsFor sheet warnings child node first taken behind rest
  | block {more spaces rest : List Piece} {block : Piece} {inside : Outline} :
      Outline.IsStem first more spaces → Outline.IsHeader first more node.statement →
      Outline.IsBlockBehind (first :: (more ++ spaces)) block →
      node.children = inside.childIds (child + 1) → sheet.Holds child (child + 1) inside →
      Outline.Sections block.body.pieces inside → AreWithin node.span inside.warnings warnings →
      StandsFor sheet warnings child node first (more ++ spaces ++ [block]) [] rest

/-- Whether a node was read from some of the pieces, where a statement can start. -/
def IsReadFrom (sheet : Stylesheet) (warnings : List ParseWarning) (child : Nat) (node : StyleNode)
    (pieces : List Piece) : Prop :=
  ∃ front first taken behind rest, pieces = front ++ (first :: taken ++ (behind ++ rest)) ∧
    Outline.IsBetween front ∧ node.span = Outline.extent first taken ∧
      StandsFor sheet warnings child node first taken behind rest

section Reading

variable {sheet : Stylesheet} {warnings warnings' : List ParseWarning} {child : Nat}
  {node : StyleNode}

theorem StandsFor.mono {first : Piece} {taken behind rest : List Piece}
    (standsFor : StandsFor sheet warnings child node first taken behind rest)
    (kept : AreWithin node.span warnings warnings') :
    StandsFor sheet warnings' child node first taken behind rest := by
  cases standsFor with
  | lone lone leaf within => exact .lone lone leaf (within.trans kept)
  | block stem header isBlock children holds sections within =>
      exact .block stem header isBlock children holds sections (within.trans kept)

theorem IsReadFrom.behind {start pieces : List Piece}
    (isRead : IsReadFrom sheet warnings child node pieces)
    (between : pieces ≠ [] → Outline.IsBetween start)
    (kept : AreWithin node.span warnings warnings') :
    IsReadFrom sheet warnings' child node (start ++ pieces) := by
  obtain ⟨front, first, taken, behind, rest, split, before, span, standsFor⟩ := isRead
  have some : pieces ≠ [] := by
    rw [split]
    exact List.append_ne_nil_of_right_ne_nil _ (List.cons_ne_nil _ _)
  refine ⟨start ++ front, first, taken, behind, rest, ?_, (between some).append before, span,
    standsFor.mono kept⟩
  rw [split, List.append_assoc]

/-- A child stands where its outline does. -/
theorem bounds_of_mem {text : Text} {outline : Outline} {above next low high : Nat}
    (holds : sheet.Holds above next outline) (placed : outline.IsPlaced text low high)
    (member : child ∈ outline.childIds next) (found : sheet.get? child = some node) :
    low ≤ node.span.start ∧ node.span.stop ≤ high := by
  have bounds := (holds.siblings placed).1 child member
  rwa [span_of_get? found] at bounds

/-- A warning in front of a child is outside of it. -/
theorem areWithin_warning {text : Text} {warned : ParseWarning} {rest : Outline}
    {above next low high : Nat} (holds : sheet.Holds above next rest)
    (placed : (Outline.warning warned rest).IsPlaced text low high)
    (member : child ∈ rest.childIds next) (found : sheet.get? child = some node) :
    AreWithin node.span rest.warnings (warned :: rest.warnings) :=
  .append_left (List.forall_mem_singleton.2 (bounds_of_mem holds placed.2 member found).1)

/-- **Each child of a block was read from some of its pieces.** -/
theorem isReadFrom_of_mem {text : Text} {pieces : List Piece} {outline : Outline}
    (sections : Outline.Sections pieces outline) {above next low high : Nat}
    (holds : sheet.Holds above next outline) (placed : outline.IsPlaced text low high)
    (member : child ∈ outline.childIds next) (found : sheet.get? child = some node) :
    IsReadFrom sheet outline.warnings child node pieces := by
  induction sections generalizing next low with
  | done => exact absurd member List.not_mem_nil
  | @gap piece rest _ isGap _ ih =>
      exact (ih holds placed member).behind (fun _ => Outline.isBetween_of_isGap isGap)
        (.refl _ _)
  | @stray piece rest _ closes _ ih =>
      exact (ih holds placed.2 member).behind (fun _ => .gap (.inr closes) .start)
        (areWithin_warning holds placed member found)
  | @bare piece rest _ opens _ ih =>
      exact (ih holds placed.2 member).behind
        (fun _ => .block (Outline.isBlockBehind_nil opens))
        (areWithin_warning holds placed member found)
  | @unknown first more spaces ending rest _ stem ends _ _ ih =>
      rw [← List.append_assoc, ← List.append_assoc]
      exact (ih holds placed.2 member).behind
        (fun some => ends.isBetween some (first :: more ++ spaces))
        (areWithin_warning holds placed member found)
  | @lone first taken behind rest statement outline lone _ ih =>
      obtain ⟨own, _, holdsRest⟩ := holds
      obtain ⟨_, _, _, placedRest⟩ := placed
      rcases List.mem_cons.1 member with rfl | inRest
      · rw [own] at found
        obtain rfl := Option.some.inj found
        refine ⟨[], first, taken, behind, rest, rfl, .start, rfl, .lone lone rfl ?_⟩
        exact .append_right fun found member => ((warnings_ascend placedRest).1 found member).1
      · rw [← List.append_assoc]
        exact (ih holdsRest placedRest inRest).behind lone.isBetween (.refl _ _)
  | @block first block more spaces rest statement inside _ stem header isBlock sections _ _ ih =>
      obtain ⟨own, within, holdsRest⟩ := holds
      obtain ⟨_, _, placedInside, placedRest⟩ := placed
      rcases List.mem_cons.1 member with rfl | inRest
      · rw [own] at found
        obtain rfl := Option.some.inj found
        refine ⟨[], first, _, [], rest, rfl, .start, rfl, .block stem header isBlock rfl within
          sections ?_⟩
        exact .append_right fun found member => ((warnings_ascend placedRest).1 found member).1
      · refine (ih holdsRest placedRest inRest).behind (fun _ => .block isBlock) ?_
        refine .append_left fun warned member' => ?_
        exact Nat.lt_of_lt_of_le ((warnings_ascend placedInside).1 warned member').2
          (bounds_of_mem holdsRest placedRest inRest found).1

end Reading

/-- Whether the children of a node are the statements of a block. -/
structure IsRead (source : Text) (id : Nat) (forest : Forest) (next : Nat) (outline : Outline)
    (low high : Nat) : Prop where
  children : (ofText source).children id = outline.childIds next
  holds : (ofText source).Holds id next outline
  sections : Outline.Sections forest.pieces outline
  stands : Stands (blankLineComments source) low forest.lexemes high
  sound : forest.IsSound (Text.bytes (blankLineComments source))
  warnings : AreWithin ⟨low, high⟩ outline.warnings (Outline.ofText source).warnings

theorem isRead_whole (source : Text) :
    IsRead source 0 (Forest.ofText (blankLineComments source)) 1 (Outline.ofText source) 0
      (Text.bytes (blankLineComments source)) where
  children := children_of_get? (isLaidOut_ofText source).root
  holds := (isLaidOut_ofText source).holds
  sections := Outline.sections_ofPieces _
  stands := Forest.stands_ofText _
  sound := Forest.isSound_ofText _
  warnings := .refl _ _

/-- Each child was read from some pieces of the block. -/
theorem IsRead.isReadFrom {source : Text} {id child next low high : Nat} {node : StyleNode}
    {forest : Forest} {outline : Outline} (isRead : IsRead source id forest next outline low high)
    (member : child ∈ (ofText source).children id)
    (found : (ofText source).get? child = some node) :
    IsReadFrom (ofText source) (Outline.ofText source).warnings child node forest.pieces := by
  obtain ⟨mid, less, placed⟩ := Outline.arePlaced_pieces isRead.stands isRead.sound
  have placed := (isRead.sections.divides.isPlaced placed).mono (Nat.le_refl _) less
  rw [isRead.children] at member
  obtain ⟨start, stop⟩ := bounds_of_mem isRead.holds placed member found
  exact (isReadFrom_of_mem isRead.sections isRead.holds placed member found).behind
    (fun _ => .start) (isRead.warnings.mono start stop)

section Ends

variable {text : Text} {low mid high : Nat} {pieces pieces' : List Piece}

theorem eq_nil_of_stands (stands : Stands text low (pieces.flatMap Piece.lexemes) low) :
    pieces = [] := by
  cases pieces with
  | nil => rfl
  | cons piece pieces =>
      have := Outline.start_lt stands
      omega

/-- Two beginnings of the same pieces that end at the same offset are equal. -/
theorem eq_of_prefix {whole : List Piece} (before : pieces <+: whole) (before' : pieces' <+: whole)
    (placed : Outline.ArePlaced text low pieces mid)
    (placed' : Outline.ArePlaced text low pieces' mid) : pieces = pieces' := by
  have longer {pieces more : List Piece} (placed : Outline.ArePlaced text low pieces mid)
      (placed' : Outline.ArePlaced text low (pieces ++ more) mid) : more = [] := by
    obtain ⟨last, front, behind⟩ := placed'.split _
    have same : last = mid := by rw [front.stands.high_eq, placed.stands.high_eq]
    rw [same] at behind
    exact eq_nil_of_stands behind.stands
  rcases List.prefix_or_prefix_of_prefix before before' with ⟨more, rfl⟩ | ⟨more, rfl⟩
  · rw [longer placed placed', List.append_nil]
  · rw [longer placed' placed, List.append_nil]

theorem stop_of_last {front : List Piece} {last : Piece}
    (placed : Outline.ArePlaced text low (front ++ [last]) high) : last.stop = high := by
  obtain ⟨mid, _, own⟩ := placed.split _
  have stands := own.stands
  rw [List.flatMap_singleton] at stands
  exact Piece.stop_eq stands

theorem stop_of_statement {front more : List Piece} {first : Piece}
    (placed : Outline.ArePlaced text low (front ++ first :: more) high) :
    (Outline.extent first more).stop = high := by
  obtain ⟨mid, _, own⟩ := placed.split _
  rw [(Outline.stands_extent own.stands).2.1]

/-- A piece that ends where a statement does is the last of the statement. -/
theorem last_of_stop {front back front' taken behind : List Piece} {block first : Piece}
    (placed : Outline.ArePlaced text low pieces high) (split : pieces = front ++ block :: back)
    (split' : pieces = front' ++ (first :: taken ++ behind))
    (ends : block.stop = (Outline.extent first taken).stop) :
    ∃ inner, first :: taken = inner ++ [block] ∧ front = front' ++ inner := by
  rw [List.append_cons] at split
  rw [← List.append_assoc] at split'
  have same : front ++ [block] = front' ++ first :: taken := by
    have placed' := placed
    rw [split] at placed
    rw [split'] at placed'
    obtain ⟨mid, own, _⟩ := placed.split _
    obtain ⟨mid', own', _⟩ := placed'.split _
    have meet : mid' = mid := by
      rw [← stop_of_last own, ends, stop_of_statement own']
    rw [meet] at own'
    exact eq_of_prefix ⟨back, split.symm⟩ ⟨behind, split'.symm⟩ own own'
  obtain ⟨inner, last, shape⟩ := (first :: taken).eq_nil_or_concat.resolve_left
    (List.cons_ne_nil _ _)
  rw [List.concat_eq_append] at shape
  rw [shape, ← List.append_assoc] at same
  obtain ⟨rfl, single⟩ := List.append_inj' same rfl
  rw [← List.singleton_inj.1 single] at shape
  exact ⟨inner, shape, rfl⟩

/-- A statement on a line of its own has no block from which statements are read. -/
theorem not_isBlockBehind_of_isLine {front inner more : List Piece} {first block : Piece}
    {statement : Statement} (line : Outline.IsLine first more statement)
    (opens : statement.opensBlock = true) (last : first :: more = inner ++ [block])
    (written : block.head.text ≠ []) : ¬ Outline.IsBlockBehind (front ++ inner) block := by
  rintro ⟨isCurly, apart⟩
  cases line with
  | atRule _ => exact Bool.noConfusion opens
  | declaration carries _ =>
      rw [last] at carries
      rcases carries.behindHash isCurly with ⟨_, glued⟩ | ⟨hash, member, isHash⟩
      · exact Bool.noConfusion glued
      · refine apart hash ?_ isHash
        rw [List.getLast?_append, Option.mem_def.1 member]
        rfl
  | @custom property value more spaces block' _ _ _ =>
      rw [← List.cons_append] at last
      rw [List.singleton_inj.1 (List.append_inj' last rfl).2] at opens
      exact List.append_ne_nil_of_left_ne_nil (List.append_ne_nil_of_left_ne_nil written _) _
        (List.isEmpty_iff.1 opens)

end Ends

/-- The block at the end of a statement is read as the statement's children. -/
theorem IsRead.inside {source : Text} {above child next low high : Nat} {node : StyleNode}
    {forest : Forest} {outline : Outline} {front back : List Piece} {block : Piece}
    (isRead : IsRead source above forest next outline low high)
    (member : child ∈ (ofText source).children above)
    (found : (ofText source).get? child = some node) (opens : node.statement.opensBlock = true)
    (split : forest.pieces = front ++ block :: back) (isBlock : Outline.IsBlockBehind front block)
    (ends : block.stop = node.span.stop) :
    ∃ next' outline' low' high', IsRead source child block.body next' outline' low' high' := by
  obtain ⟨last, _, placed⟩ := Outline.arePlaced_pieces isRead.stands isRead.sound
  obtain ⟨front', first, taken, behind, rest, split', _, span, standsFor⟩ :=
    isRead.isReadFrom member found
  obtain ⟨inner, shape, rfl⟩ := last_of_stop placed split split' (ends.trans (by rw [span]))
  rw [List.append_cons] at split
  rw [split] at placed
  obtain ⟨_, own, _⟩ := placed.split _
  obtain ⟨_, before, placedBlock⟩ := own.split _
  obtain ⟨start, stop, above, below, stands, sound⟩ :=
    Outline.stands_body (show block.token.opens? = some .curly by rw [isBlock.1]; rfl) placedBlock
  cases standsFor with
  | lone lone _ _ =>
      have placedStands := placedBlock.stands
      rw [List.flatMap_singleton] at placedStands
      exact absurd isBlock (not_isBlockBehind_of_isLine lone.isLine opens shape
        (Piece.head_text_ne_nil placedStands))
  | @block more spaces _ block' inside _ header _ children holds sections warnings =>
      rw [← List.cons_append] at shape
      obtain ⟨rfl, single⟩ := List.append_inj' shape rfl
      obtain rfl := List.singleton_inj.1 single
      have within : node.span.start ≤ start ∧ stop ≤ node.span.stop := by
        obtain ⟨_, _, header⟩ := before.split _
        have opening := (Outline.start_lt header.stands).2
        rw [← ends, stop_of_last own, span, Outline.extent]
        exact ⟨Nat.le_of_lt (Nat.lt_trans opening above), below⟩
      exact ⟨_, inside, start, stop,
        { children := (children_of_get? found).trans children
          holds := holds
          sections := sections
          stands := stands
          sound := sound
          warnings := warnings.mono within.1 within.2 }⟩

theorem ReadsBlock.isRead {source : Text} {id : Nat} {forest : Forest}
    (reads : ReadsBlock source id forest) :
    ∃ next outline low high, IsRead source id forest next outline low high := by
  induction reads with
  | whole => exact ⟨_, _, _, _, isRead_whole source⟩
  | inside _ member found opens split isBlock ends ih =>
      obtain ⟨_, _, _, _, isRead⟩ := ih
      exact isRead.inside member found opens split isBlock ends

/-- The pieces of a block stand in the blanked text. -/
theorem ReadsBlock.arePlaced {source : Text} {id : Nat} {forest : Forest}
    (reads : ReadsBlock source id forest) :
    ∃ low high, Outline.ArePlaced (blankLineComments source) low forest.pieces high := by
  obtain ⟨_, _, low, _, isRead⟩ := reads.isRead
  obtain ⟨mid, _, placed⟩ := Outline.arePlaced_pieces isRead.stands isRead.sound
  exact ⟨low, mid, placed⟩

/-- Each child was read from some pieces of the block. -/
theorem ReadsBlock.isReadFrom {source : Text} {above id : Nat} {node : StyleNode} {forest : Forest}
    (reads : ReadsBlock source above forest) (member : id ∈ (ofText source).children above)
    (found : (ofText source).get? id = some node) :
    IsReadFrom (ofText source) (Outline.ofText source).warnings id node forest.pieces := by
  obtain ⟨_, _, _, _, isRead⟩ := reads.isRead
  exact isRead.isReadFrom member found

theorem opensBlock_of_isHeader {first : Piece} {more : List Piece} {statement : Statement}
    (header : Outline.IsHeader first more statement) : statement.opensBlock = true := by
  cases header <;> rfl

/-- The block behind a header is one from which children are read. -/
theorem ReadsBlock.ofHeader {source : Text} {above child : Nat} {node : StyleNode} {forest : Forest}
    {front more spaces rest : List Piece} {first block : Piece}
    (reads : ReadsBlock source above forest) (member : child ∈ (ofText source).children above)
    (found : (ofText source).get? child = some node)
    (header : Outline.IsHeader first more node.statement)
    (isBlock : Outline.IsBlockBehind (first :: (more ++ spaces)) block)
    (split : forest.pieces = front ++ (first :: (more ++ spaces ++ [block]) ++ rest))
    (span : node.span = Outline.extent first (more ++ spaces ++ [block])) :
    ReadsBlock source child block.body := by
  have passage : forest.pieces = front ++ first :: (more ++ spaces) ++ block :: rest := by
    rw [split, ← List.cons_append, List.append_assoc, List.append_assoc]
    rfl
  refine .inside reads member found (opensBlock_of_isHeader header) passage ?_ ?_
  · refine ⟨isBlock.1, fun last member => isBlock.2 last ?_⟩
    rw [List.getLast?_append, List.getLast?_cons] at member
    rwa [List.getLast?_cons]
  · rw [span, Outline.extent, Outline.stopFrom_concat]

/-- Every block from which children are read is reached. -/
theorem exists_readsBlock {source : Text} {id : Nat} {node : StyleNode}
    (found : (ofText source).get? id = some node)
    (opens : node.statement.declaration? = none ∧ node.statement.opensBlock = true ∨
      node.children ≠ []) : ∃ forest, ReadsBlock source id forest := by
  induction id using Nat.strongRecOn generalizing node with
  | _ id ih =>
      by_cases isRoot : id = 0
      · subst isRoot
        exact ⟨_, .whole⟩
      obtain ⟨node', above, parent, found', up, foundParent, member, _⟩ :=
        isInside_ofText isRoot found
      rw [found] at found'
      obtain rfl := Option.some.inj found'
      have isChild : id ∈ (ofText source).children above := by
        rwa [children_of_get? foundParent]
      obtain ⟨forest, reads⟩ := ih above (lt_of_mem_children isChild).1 foundParent
        (.inr (List.ne_nil_of_mem member))
      obtain ⟨front, first, taken, behind, rest, split, _, span, standsFor⟩ :=
        reads.isReadFrom isChild found
      cases standsFor with
      | lone lone leaf _ =>
          rcases opens with ⟨noDeclaration, opens⟩ | some
          · have line := lone.isLine
            generalize node.statement = statement at line noDeclaration opens
            cases line with
            | atRule _ => exact Bool.noConfusion opens
            | declaration _ _ => exact absurd noDeclaration (Option.some_ne_none _)
            | custom _ _ _ => exact absurd noDeclaration (Option.some_ne_none _)
          · exact absurd leaf some
      | @block more spaces _ block inside _ header isBlock _ _ _ _ =>
          exact ⟨block.body, reads.ofHeader isChild found header isBlock split span⟩

/-- Every node but the root was read from some pieces of a block. -/
theorem exists_isReadFrom {source : Text} {id : Nat} {node : StyleNode} (inner : id ≠ 0)
    (found : (ofText source).get? id = some node) :
    ∃ above forest, id ∈ (ofText source).children above ∧ ReadsBlock source above forest ∧
      IsReadFrom (ofText source) (Outline.ofText source).warnings id node forest.pieces := by
  obtain ⟨_, above, parent, _, _, foundParent, member, _⟩ := isInside_ofText inner found
  obtain ⟨forest, reads⟩ := exists_readsBlock foundParent (.inr (List.ne_nil_of_mem member))
  have isChild : id ∈ (ofText source).children above := by
    rwa [children_of_get? foundParent]
  exact ⟨above, forest, isChild, reads, reads.isReadFrom isChild found⟩

/-- Whether reading a text gives exactly one warning at the offset of `found`, which is `found`. -/
def IsWarnedOnce (source : Text) (found : ParseWarning) : Prop :=
  (Outline.ofText source).warnings.filter (·.offset == found.offset) = [found]

theorem isWarnedOnce_of_mem {source : Text} {found : ParseWarning}
    (member : found ∈ (Outline.ofText source).warnings) : IsWarnedOnce source found := by
  obtain ⟨_, ordered⟩ := warnings_ascend (Outline.isPlaced_ofText source)
  obtain ⟨front, back, split⟩ := List.append_of_mem member
  rw [IsWarnedOnce, split]
  rw [split, List.pairwise_append, List.pairwise_cons] at ordered
  obtain ⟨_, ⟨behind, _⟩, before⟩ := ordered
  have noneBefore : front.filter (·.offset == found.offset) = [] :=
    List.filter_eq_nil_iff.2 fun other inFront same =>
      Nat.ne_of_lt (before other inFront found List.mem_cons_self) (beq_iff_eq.1 same)
  have noneBehind : back.filter (·.offset == found.offset) = [] :=
    List.filter_eq_nil_iff.2 fun other inBack same =>
      Nat.ne_of_gt (behind other inBack) (beq_iff_eq.1 same)
  have own : (found.offset == found.offset) = true := beq_self_eq_true _
  rw [List.filter_append, noneBefore, List.nil_append, List.filter_cons, if_pos own, noneBehind]

theorem IsRead.accounted {source : Text} {id next low high : Nat} {forest : Forest}
    {outline : Outline} (isRead : IsRead source id forest next outline low high) :
    ∀ lexeme ∈ forest.lexemes,
      Accounted (ofText source) ((ofText source).children id) (IsWarnedOnce source) forest.pieces
        lexeme := by
  intro lexeme member
  obtain ⟨last, whole, comments⟩ := forest.lexemes_pieces
  have stands := isRead.stands
  rw [whole] at member stands
  obtain ⟨mid, own, behind⟩ := stands.split _
  have placed : Outline.ArePlaced (blankLineComments source) low forest.pieces mid :=
    ⟨own, Forest.isSound_pieces isRead.sound⟩
  rw [isRead.children]
  rcases List.mem_append.1 member with inPieces | inLast
  · exact (isRead.sections.divides.accounted placed isRead.holds lexeme inPieces).mono
      fun found member => isWarnedOnce_of_mem (isRead.warnings.all found member)
  · refine .between (by rw [comments lexeme inLast]; rfl) fun child member => .inr ?_
    have placed' := isRead.sections.divides.isPlaced placed
    exact Nat.le_trans ((isRead.holds.siblings placed').1 child member).2
      (behind.of_mem inLast).1

/-- **Nothing is dropped silently.** At the root and inside every block from which the children of a
node are read, each token is accounted for; and every block of a rule or of an at-rule, and every
block that gave a node its children, is such a block. -/
theorem accounts_ofText (source : Text) :
    (∀ id forest, ReadsBlock source id forest → ∀ lexeme ∈ forest.lexemes,
      Accounted (ofText source) ((ofText source).children id) (IsWarnedOnce source) forest.pieces
        lexeme) ∧
    ∀ id node, (ofText source).get? id = some node →
      node.statement.declaration? = none ∧ node.statement.opensBlock = true ∨ node.children ≠ [] →
      ∃ forest, ReadsBlock source id forest := by
  refine ⟨fun id forest reads lexeme member => ?_, fun id node => exists_readsBlock⟩
  obtain ⟨next, outline, low, high, isRead⟩ := reads.isRead
  exact isRead.accounted lexeme member

end Stylesheet

end ScssLint
