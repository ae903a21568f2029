import ScssLint.Proofs.Comment.Overwriting
import ScssLint.Proofs.Css.Fitting
import ScssLint.Proofs.Stylesheet.Iterations
import ScssLint.Proofs.Stylesheet.Spans

/-! # Reading leads forward

What is left of a text stands in the text block by block, from the place of the reader on
(`Outline.AreOpen`). So each iteration leads forward, in a block of any depth, and a block is left
where its closing bracket stands, or at the end of the text (`Outline.Reader.leads_step`). Since a
statement and a warning take at least a byte each, there are no more of them than bytes
(`Outline.IsPlaced.count_add_length_le`). Every text is read to its end in this way
(`Outline.isReadToEnd`).
-/

namespace ScssLint

open Css

namespace Css

/-- Whether a block in brackets of a kind stands in a text, from its opening bracket up to its
end. -/
inductive IsMatched (text : Text) (bracket : Bracket) (span : Span) : Prop
  /-- Behind what the block holds stands the closing bracket that belongs to the opening one. -/
  | closed {opener close : Lexeme} {body : Forest} : opener.token.opens? = some bracket →
      close.token.closes? = some bracket → Forest.FitsIn (some bracket) body →
      body.isShut = true → Stands text span.start (opener :: (body.lexemes ++ [close])) span.stop →
      IsMatched text bracket span
  /-- Without a closing bracket the block runs to the end of the text. -/
  | unclosed {opener : Lexeme} {body : Forest} : opener.token.opens? = some bracket →
      Forest.FitsIn (some bracket) body →
      Stands text span.start (opener :: body.lexemes) span.stop →
      span.stop = Text.bytes text → IsMatched text bracket span

/-- Whether what the block of a piece holds fits in it, if the piece is a block. -/
def Piece.Fits (piece : Piece) : Prop :=
  ∀ body close?, piece.block? = some (body, close?) → ∃ bracket,
    piece.token.opens? = some bracket ∧ Forest.FitsIn (some bracket) body ∧
      ∀ close ∈ close?, close.token.closes? = some bracket ∧ body.isShut = true

theorem Forest.FitsIn.fits_of_mem {inside? : Option Bracket} {forest : Forest}
    (fits : FitsIn inside? forest) (lead : List Lexeme) :
    ∀ piece ∈ forest.piecesBehind lead, piece.Fits := by
  induction forest generalizing lead with
  | nil => exact List.forall_mem_nil _
  | leaf lexeme rest ih =>
      have later : FitsIn inside? rest := by
        cases fits with
        | leaf _ _ later => exact later
      unfold piecesBehind
      split
      · exact ih later _
      · refine List.forall_mem_cons.2 ⟨fun body close? block => ?_, ih later []⟩
        exact absurd block.symm (Option.some_ne_none _)
  | block opener body close? rest _ ih =>
      obtain ⟨bracket, opens, inside, closes, _, later⟩ := fits.block_inv
      refine List.forall_mem_cons.2 ⟨fun body' close?' block => ?_, ih later []⟩
      obtain ⟨rfl, rfl⟩ := Prod.mk.inj (Option.some.inj block)
      exact ⟨bracket, opens, inside, closes⟩

end Css

namespace Outline

/-! ### Places -/

section Places

variable {text : Text} {low high : Nat} {piece : Piece} {pieces front : List Piece}

/-- A piece that is a block ends with the closing bracket that belongs to it, or with the text. -/
theorem isMatched_of_placed {bracket : Bracket} (placed : ArePlaced text low [piece] high)
    (fits : piece.Fits) (opens : piece.token.opens? = some bracket) :
    IsMatched text bracket ⟨piece.head.start, piece.stop⟩ := by
  obtain ⟨stands, sound⟩ := placed
  rw [List.flatMap_singleton] at stands
  have sound := List.forall_mem_singleton.1 sound
  have stop := Piece.stop_eq stands
  rw [Piece.lexemes_eq] at stands
  obtain ⟨start, _, own⟩ := stands.split _
  obtain ⟨lead, head, block?⟩ := piece
  cases block? with
  | none =>
      rw [(sound.single rfl).1] at opens
      exact absurd opens.symm (Option.some_ne_none _)
  | some block =>
      obtain ⟨body, close?⟩ := block
      obtain ⟨bracket', opens', inside, closes⟩ := fits body close? rfl
      obtain rfl := Option.some.inj (opens'.symm.trans opens)
      obtain rfl : head.start = start := own.start_eq
      have last := (sound.block body close? rfl).2.1
      rw [stop]
      cases close? with
      | some close =>
          obtain ⟨closes, shut⟩ := closes close rfl
          exact .closed opens closes inside shut own
      | none =>
          have shape : Piece.own ⟨lead, head, some (body, none)⟩ = head :: body.lexemes :=
            congrArg (head :: ·) (List.append_nil _)
          rw [shape] at own
          refine .unclosed opens inside own (?_ : high = Text.bytes text)
          calc
            high = head.stop + Text.bytes body.text := own.tail.high_eq
            _ = head.stop + body.bytes := by rw [Forest.bytes_text]
            _ = Text.bytes text := last rfl

theorem isMatched_of_mem {bracket : Bracket} (placed : ArePlaced text low pieces high)
    (fits : ∀ piece ∈ pieces, piece.Fits) (member : piece ∈ pieces)
    (opens : piece.token.opens? = some bracket) :
    IsMatched text bracket ⟨piece.head.start, piece.stop⟩ := by
  obtain ⟨front, behind, rfl⟩ := List.append_of_mem member
  obtain ⟨_, _, later⟩ := placed.split front
  obtain ⟨_, own, _⟩ := later.split [piece]
  exact isMatched_of_placed own (fits piece member) opens

/-- Some pieces reach forward. -/
theorem ArePlaced.low_lt_high (placed : ArePlaced text low pieces high) (some : pieces ≠ []) :
    low < high := by
  obtain ⟨first, more, rfl⟩ := List.exists_cons_of_ne_nil some
  obtain ⟨behind, before⟩ := start_lt placed.stands
  omega

/-- Behind the opening bracket of a block. -/
theorem ArePlaced.head_stop (placed : ArePlaced text low (front ++ [piece]) high) :
    low ≤ piece.head.start ∧ piece.head.start < piece.head.stop ∧ piece.head.stop ≤ high ∧
      piece.stop = high := by
  obtain ⟨mid, first, last⟩ := placed.split front
  have stands := last.stands
  rw [List.flatMap_singleton] at stands
  have stop := Piece.stop_eq stands
  rw [Piece.lexemes_eq] at stands
  obtain ⟨start, lead, own⟩ := stands.split _
  obtain ⟨inside, shape⟩ := piece.exists_own
  rw [shape] at own
  have within := own.of_mem List.mem_cons_self
  have := first.stands.low_le_high
  have := lead.low_le_high
  omega

/-- What stands inside a block is placed behind its opening bracket and in front of its end. -/
theorem exists_inside (placed : ArePlaced text low (front ++ [piece]) high) (fits : piece.Fits)
    (opens : piece.token = .opening .curly) :
    ∃ mid ≤ high, ArePlaced text piece.head.stop piece.body.pieces mid ∧
      ∀ inner ∈ piece.body.pieces, inner.Fits := by
  obtain ⟨_, _, last⟩ := placed.split front
  have isOpener : piece.token.opens? = some .curly := by rw [opens]; rfl
  obtain ⟨close?, own, _, _, sound⟩ :=
    (List.forall_mem_singleton.1 last.sound).exists_block isOpener
  have stands := last.stands
  rw [List.flatMap_singleton, Piece.lexemes_eq, own] at stands
  obtain ⟨_, _, rest⟩ := stands.split _
  obtain ⟨stop, body, close⟩ := rest.tail.split _
  obtain ⟨mid, less, inside⟩ := arePlaced_pieces body sound
  refine ⟨mid, Nat.le_trans less close.low_le_high, inside, ?_⟩
  obtain ⟨lead, head, block?⟩ := piece
  cases block? with
  | none => exact List.forall_mem_nil _
  | some block =>
      obtain ⟨_, _, inside, _⟩ := fits block.1 block.2 rfl
      exact inside.fits_of_mem []

end Places

/-! ### Steps -/

/-- Whether what is left of the open blocks stands in a text from a place on, block by block. -/
inductive AreOpen (text : Text) : Nat → List OpenBlock → Prop
  | none : AreOpen text (Text.bytes text) []
  | block {position high above : Nat} {pieces : List Piece} {span : Span} {outer : List OpenBlock} :
      ArePlaced text position pieces high → high ≤ span.stop →
      (∀ piece ∈ pieces, piece.Fits) → AreOpen text span.stop outer →
      AreOpen text position (⟨pieces, above, span⟩ :: outer)

theorem AreOpen.le_bytes {text : Text} {position : Nat} {opened : List OpenBlock}
    (areOpen : AreOpen text position opened) : position ≤ Text.bytes text := by
  induction areOpen with
  | none => exact Nat.le_refl _
  | block placed less _ _ ih => exact Nat.le_trans placed.stands.low_le_high (Nat.le_trans less ih)

/-- The blocks among what is left end where they should. -/
theorem AreOpen.isMatched {text : Text} {position : Nat} {opened : List OpenBlock}
    (areOpen : AreOpen text position opened) :
    ∀ block ∈ opened, ∀ piece ∈ block.pieces, ∀ bracket, piece.token.opens? = some bracket →
      IsMatched text bracket ⟨piece.head.start, piece.stop⟩ := by
  induction areOpen with
  | none => exact List.forall_mem_nil _
  | block placed _ fits _ ih =>
      refine List.forall_mem_cons.2 ⟨fun piece member bracket opens => ?_, ih⟩
      exact isMatched_of_mem placed fits member opens

/-- Where a step leads in which something happens. -/
inductive Leads (text : Text) (position later : Nat) : Event → Prop
  /-- An iteration leads forward. -/
  | moved : position < later → Leads text position later .moved
  /-- A block is entered behind its opening bracket. -/
  | entered {span : Span} : position ≤ span.start → span.start < later →
      IsMatched text .curly span → Leads text position later (.entered span)
  /-- A block is left where it ends. -/
  | left {span : Span} : position ≤ span.stop → later = span.stop →
      Leads text position later (.left span)

/-- A block that is the last of some pieces is entered. -/
theorem enters_block {text : Text} {low high : Nat} {front : List Piece} {block : Piece}
    {outer : List OpenBlock} (placed : ArePlaced text low (front ++ [block]) high)
    (fits : ∀ piece ∈ front ++ [block], piece.Fits) (opens : block.token = .opening .curly)
    (areOpen : AreOpen text high outer) (above : Nat) :
    Leads text low block.head.stop (.entered ⟨block.head.start, block.stop⟩) ∧
      AreOpen text block.head.stop
        (⟨block.body.pieces, above, ⟨block.head.start, block.stop⟩⟩ :: outer) := by
  have member : block ∈ front ++ [block] := List.mem_append_right front List.mem_cons_self
  have isOpener : block.token.opens? = some .curly := by rw [opens]; rfl
  obtain ⟨starts, inside, _, ends⟩ := placed.head_stop
  obtain ⟨mid, less, body, fitsBody⟩ := exists_inside placed (fits block member) opens
  have matched := isMatched_of_mem placed fits member isOpener
  subst ends
  exact ⟨.entered starts inside matched, .block body less fitsBody areOpen⟩

/-- **A step leads forward, and what is left stands where it leads.** -/
theorem Reader.leads_step {text : Text} {reader later : Reader} {event : Event}
    (areOpen : AreOpen text reader.position reader.opened)
    (steps : reader.step = some (event, later)) :
    Leads text reader.position later.position event ∧
      AreOpen text later.position later.opened := by
  obtain ⟨position, opened, sheet, warnings⟩ := reader
  cases areOpen with
  | none => cases steps
  | @block _ high above pieces span outer placed less fits areOpen =>
      cases pieces with
      | nil =>
          cases steps
          refine ⟨.left ?_ rfl, areOpen⟩
          exact Nat.le_trans placed.stands.low_le_high less
      | cons piece pieces =>
          -- What the iteration takes and what it leaves stand one behind the other.
          obtain ⟨written, whole⟩ := taken_iterate piece pieces
          rw [← whole] at placed fits
          obtain ⟨mid, taken, rest⟩ := placed.split _
          obtain ⟨fitsTaken, fitsRest⟩ := List.forall_mem_append.1 fits
          have forward := taken.low_lt_high written
          have stop := stopFrom_eq taken.stands
          have left : AreOpen text mid (⟨(iterate piece pieces).rest, above, span⟩ :: outer) :=
            .block rest less fitsRest areOpen
          have enters := @exists_front piece
          rcases iteration : iterate piece pieces with ⟨outcome, front, behind⟩
          simp only [iteration] at taken fitsTaken stop left
          simp only [Reader.step, iteration, stop] at steps
          cases outcome with
          | passed =>
              cases steps
              exact ⟨.moved forward, left⟩
          | warned found =>
              cases steps
              exact ⟨.moved forward, left⟩
          | stated statement extent =>
              cases steps
              exact ⟨.moved forward, left⟩
          | entered statement extent block =>
              cases steps
              obtain ⟨opens, front', last⟩ :=
                @enters block pieces statement extent (by rw [iteration])
              obtain rfl : front = front' ++ [block] := by rwa [iteration] at last
              exact enters_block taken fitsTaken opens left _

/-- Where reading goes on behind a cut: inside the block that ends the statement, or else behind
what the cut takes. -/
def Cut.position (low : Nat) (cut : Cut) : Nat :=
  match cut.ending with
  | .block block => block.head.stop
  | _ => stopFrom low cut.taken

/-- **A cut leads forward.** -/
theorem lt_position_cutStatement {text : Text} {low high : Nat} {pieces : List Piece}
    (placed : ArePlaced text low pieces high) (written : pieces ≠ []) (behindHash : Bool) :
    low < (cutStatement behindHash pieces).position low ∧
      (cutStatement behindHash pieces).position low ≤ high := by
  have some := taken_ne_nil behindHash written
  rw [← taken_append_rest behindHash pieces] at placed
  obtain ⟨mid, taken, rest⟩ := placed.split _
  have reaches := rest.stands.low_le_high
  rw [Cut.position]
  split
  · rename_i block ends
    rw [Cut.taken, ends] at taken
    obtain ⟨starts, inside, within, _⟩ := taken.head_stop
    omega
  · rw [stopFrom_eq taken.stands]
    exact ⟨taken.low_lt_high some, reaches⟩

/-! ### Runs -/

/-- What is left of a text at its start. -/
theorem areOpen_ofText (source : Text) :
    AreOpen (blankLineComments source) (Reader.ofText source).position
      (Reader.ofText source).opened := by
  have fits : Forest.FitsIn none (Forest.ofText (blankLineComments source)) :=
    Forest.fitsIn_ofLexemes _
  obtain ⟨mid, less, placed⟩ :=
    arePlaced_pieces (Forest.stands_ofText (blankLineComments source)) (Forest.isSound_ofText _)
  rw [Comment.bytes_blankLineComments] at less
  refine .block placed less (fits.fits_of_mem []) (?_ : AreOpen _ (Text.bytes source) [])
  rw [← Comment.bytes_blankLineComments source]
  exact .none

/-- The blocks that are entered. -/
def entries (events : List Event) : List Span :=
  events.filterMap fun
    | .entered span => some span
    | _ => none

/-- **A run leads forward**, from block to block. -/
theorem Reader.Runs.forward {text : Text} {reader later : Reader} {events : List Event}
    (runs : reader.Runs events later) (areOpen : AreOpen text reader.position reader.opened) :
    AreOpen text later.position later.opened ∧
      (∀ span ∈ entries events, reader.position ≤ span.start) ∧
      (entries events).Pairwise fun first second => first.start < second.start := by
  induction runs with
  | stay reader => exact ⟨areOpen, List.forall_mem_nil _, .nil⟩
  | @step reader next later event events steps _ ih =>
      obtain ⟨leads, areOpen⟩ := Reader.leads_step areOpen steps
      obtain ⟨areOpen, starts, apart⟩ := ih areOpen
      refine ⟨areOpen, ?_⟩
      cases leads with
      | moved forward =>
          exact ⟨fun span member => Nat.le_trans (Nat.le_of_lt forward) (starts span member), apart⟩
      | left forward same =>
          exact ⟨fun span member => Nat.le_trans (same ▸ forward) (starts span member), apart⟩
      | @entered span behind inside _ =>
          -- The rest of the run starts inside the block, so behind the place where the block does.
          have later (other : Span) (member : other ∈ entries events) : span.start < other.start :=
            Nat.lt_of_lt_of_le inside (starts other member)
          refine ⟨List.forall_mem_cons.2 ⟨behind, fun other member => ?_⟩,
            List.pairwise_cons.2 ⟨later, apart⟩⟩
          exact Nat.le_trans behind (Nat.le_of_lt (later other member))

/-! ### Bounds -/

/-- Statements and warnings take at least a byte each. -/
theorem IsPlaced.count_add_length_le {text : Text} {low high : Nat} {outline : Outline}
    (placed : outline.IsPlaced text low high) :
    low + (outline.count + outline.warnings.length) ≤ high := by
  induction outline generalizing low high with
  | nil => exact placed
  | node statement span inside rest inner later =>
      obtain ⟨behind, _, within, others⟩ := placed
      have := inner within
      have := later others
      rw [count_node, Outline.warnings, List.length_append]
      omega
  | warning found rest later =>
      obtain ⟨behind, others⟩ := placed
      have := later others
      rw [count_warning, Outline.warnings, List.length_cons]
      omega

/-! ### Texts -/

/-- How a text is read to its end. -/
structure IsReadToEnd (source : Text) : Prop where
  /-- Reading stops at the end of the text. Every block that was entered has been left, behind all
  blocks in it, and what came out is the tree of the text. -/
  ends : ∃ events, AreNested events ∧
    (Reader.ofText source).Runs (events ++ [.left ⟨0, Text.bytes source⟩])
      ⟨Text.bytes source, [], Stylesheet.ofText source, (ofText source).warnings⟩ ∧
    ∀ events' reader, (Reader.ofText source).Runs events' reader →
      events' <+: events ++ [.left ⟨0, Text.bytes source⟩]
  /-- An iteration leads forward in a block of any depth, a block that is entered is left at its
  end, and no step leads past the end of the text. -/
  forward : ∀ events reader, (Reader.ofText source).Runs events reader →
    reader.position ≤ Text.bytes source ∧ ∀ event later, reader.step = some (event, later) →
      Leads (blankLineComments source) reader.position later.position event
  /-- No block is entered twice. -/
  once : ∀ events reader, (Reader.ofText source).Runs events reader →
    (entries events).Pairwise fun first second => first.start < second.start
  /-- A cut of a statement takes a piece if there is one, and so it leads forward. -/
  cuts : ∀ behindHash pieces low high, ArePlaced (blankLineComments source) low pieces high →
    pieces ≠ [] → (cutStatement behindHash pieces).taken ≠ [] ∧
      low < (cutStatement behindHash pieces).position low ∧
      (cutStatement behindHash pieces).position low ≤ high
  /-- A block that is skipped as a whole ends with the closing bracket that belongs to it, or with
  the text, too. -/
  skipped : ∀ events reader, (Reader.ofText source).Runs events reader →
    ∀ block ∈ reader.opened, ∀ piece ∈ block.pieces, ∀ bracket,
      piece.token.opens? = some bracket →
        IsMatched (blankLineComments source) bracket ⟨piece.head.start, piece.stop⟩
  /-- There are no more statements and warnings than bytes. -/
  bounded : (Stylesheet.ofText source).size - 1 + (ofText source).warnings.length ≤
    Text.bytes source

/-- **Every text is read to its end.** -/
theorem isReadToEnd (source : Text) : IsReadToEnd source := by
  have length := Comment.bytes_blankLineComments source
  have start := areOpen_ofText source
  refine ⟨?_, fun events reader runs => ?_, fun events reader runs => ?_,
    fun behindHash pieces low high placed written => ?_,
    fun events reader runs block open' piece member bracket opens => ?_, ?_⟩
  · obtain ⟨events, nested, runs⟩ := leaves_ofText source
    exact ⟨events, nested, runs, fun events' reader => runs.prefix_of_ended rfl⟩
  · obtain ⟨areOpen, _, _⟩ := runs.forward start
    exact ⟨length ▸ areOpen.le_bytes, fun event later steps =>
      (Reader.leads_step areOpen steps).1⟩
  · exact (runs.forward start).2.2
  · exact ⟨taken_ne_nil behindHash written, lt_position_cutStatement placed written behindHash⟩
  · exact (runs.forward start).1.isMatched block open' piece member bracket opens
  · have placed := (isPlaced_ofText source).count_add_length_le
    rw [length, Nat.zero_add] at placed
    rw [(Stylesheet.isLaidOut_ofText source).size]
    omega

end Outline

end ScssLint
