import ScssLint.Proofs.Source.Markup

/-! # Where stylesheets are cut out of markup

A stylesheet starts behind the first `>` of its tag and ends at the first mark of a closing tag. The
tag ends at that `>` unless a quoted value is open there, and an element ends at the mark unless its
name goes on (`Root.isCut_ofSource`). Where one of these happens, the stylesheet is not what the
element holds (`Root.not_ends_ofSource`).
-/

namespace ScssLint

/-- Where a reader stands among the attributes of a tag. -/
inductive TagPlace where
  /-- Between two attributes. -/
  | between
  /-- In the name of an attribute. -/
  | name
  /-- In the white space behind a name. -/
  | behindName
  /-- Behind an equals sign. -/
  | equals
  /-- In a value without quotes. -/
  | bare
  /-- In a value behind a quote. -/
  | quoted (quote : Char)
deriving DecidableEq

namespace TagPlace

/-- The place behind one more character. A quote opens a value only behind an equals sign. -/
def next : TagPlace → Char → TagPlace
  | between, c => if isSpace c || c == '/' then between else name
  | name, c | behindName, c =>
      if isSpace c then behindName
      else if c = '/' then between
      else if c = '=' then equals
      else name
  | equals, c => if isSpace c then equals else if c = '"' ∨ c = '\'' then quoted c else bare
  | bare, c => if isSpace c then between else bare
  | quoted quote, c => if c = quote then between else quoted quote

/-- Whether the place is in a quoted value. -/
def isQuoted : TagPlace → Bool
  | quoted _ => true
  | _ => false

/-- The place behind some attributes. -/
def behind (attributes : Text) : TagPlace :=
  attributes.foldl next between

end TagPlace

/-- What stands in front of the `>` that ends a tag, and what stands behind it. -/
def tagEnd? (place : TagPlace) : Text → Option (Text × Text)
  | [] => none
  | c :: rest =>
      if c = '>' ∧ place.isQuoted = false then
        some ([], rest)
      else
        (tagEnd? (place.next c) rest).map fun (inside, behind) => (c :: inside, behind)

/-- **A tag ends at its first `>`** unless a quoted value is open there. -/
theorem tagEnd?_iff {place : TagPlace} {attributes rest : Text} (first : '>' ∉ attributes) :
    tagEnd? place (attributes ++ '>' :: rest) = some (attributes, rest) ↔
      (attributes.foldl TagPlace.next place).isQuoted = false := by
  induction attributes generalizing place with
  | nil =>
      rw [List.nil_append, tagEnd?, List.foldl_nil]
      split
      · rename_i ends
        exact iff_of_true rfl ends.2
      · rename_i goesOn
        refine iff_of_false (fun same => ?_) fun ends => goesOn ⟨rfl, ends⟩
        obtain ⟨split, _, same⟩ := Option.map_eq_some_iff.1 same
        exact List.cons_ne_nil _ _ (Prod.mk.inj same).1
  | cons c attributes ih =>
      obtain ⟨other, first⟩ := not_or.1 (List.mem_cons.not.1 first)
      rw [List.cons_append, tagEnd?, if_neg fun ends => other ends.1.symm, List.foldl_cons,
        ← ih first]
      constructor
      · intro same
        obtain ⟨split, later, same⟩ := Option.map_eq_some_iff.1 same
        obtain ⟨inside, behind⟩ := Prod.mk.inj same
        rw [later, ← (List.cons.inj inside).2, ← behind]
      · intro later
        rw [later, Option.map_some]

/-- What stands around the text of a root: what is in front of its tag, the mark and the attributes
of the tag, and what is behind the root. -/
structure Frame where
  before : Text
  mark : Text
  attributes : Text
  behind : Text

namespace Frame

variable {frame : Frame} {offset : Nat} {source : Text} {root : Root}

/-- The text from the attributes of the tag on. -/
def tag (frame : Frame) (root : Root) : Text :=
  frame.attributes ++ '>' :: (root.text ++ frame.behind)

/-- Whether a root stands behind a `>` and a tag starts in front of that `>`, in a text that starts
at `offset`. -/
structure Encloses (frame : Frame) (offset : Nat) (source : Text) (root : Root) : Prop where
  source_eq : source = frame.before ++ (frame.mark ++ frame.tag root)
  offset_eq : root.offset =
    offset + (Text.bytes frame.before + Text.bytes frame.mark + Text.bytes frame.attributes + 1)
  isMark : Text.equalAnyCase Root.openingTag frame.mark = true
  isNamed : Root.endsTagName (frame.tag root) = true

/-- Whether the tag ends right in front of the root, at a `>` outside of quoted values. -/
def StartsBehindTag (frame : Frame) (root : Root) : Prop :=
  tagEnd? .between (frame.tag root) = some (frame.attributes, root.text ++ frame.behind)

/-- Whether the root ends at a closing tag, whose name does not go on, or at the end of the text. -/
def EndsAtTag (frame : Frame) : Prop :=
  frame.behind = [] ∨ ∃ close rest, frame.behind = close ++ rest ∧
    Text.equalAnyCase Root.closingTag close = true ∧ (rest = [] ∨ Root.endsTagName rest = true)

/-- Whether a root is cut at the first `>` and at the first mark of a closing tag. -/
structure IsCut (frame : Frame) (root : Root) : Prop where
  firstEnd : '>' ∉ frame.attributes
  firstMark : ∀ tail ∈ root.text.tails, tail ≠ [] →
    Text.startsWithAnyCase Root.closingTag (tail ++ frame.behind) = false
  mark : frame.behind = [] ∨ Text.startsWithAnyCase Root.closingTag frame.behind = true

/-- The frame in a longer text. -/
def within (start : Text) (frame : Frame) : Frame :=
  { frame with before := start ++ frame.before }

theorem Encloses.within {start : Text}
    (encloses : frame.Encloses (offset + Text.bytes start) source root) :
    (frame.within start).Encloses offset (start ++ source) root where
  source_eq := by
    rw [encloses.source_eq]
    exact (List.append_assoc _ _ _).symm
  offset_eq := by
    rw [encloses.offset_eq]
    simp only [Frame.within, Text.bytes_append]
    omega
  isMark := encloses.isMark
  isNamed := encloses.isNamed

/-- A root behind a text with one tag has one frame. -/
theorem Encloses.unique (start : Text) {attributes behind : Text}
    (encloses : frame.Encloses 0 source root) (whole : source = start ++ (root.text ++ behind))
    (place : root.offset = Text.bytes start)
    (oneTag : ∀ tail ∈ start.tails, Text.startsWithAnyCase Root.openingTag tail = true →
      tail.drop Root.openingTag.length = attributes ++ ['>']) :
    frame.attributes = attributes ∧ frame.behind = behind := by
  have split : start ++ (root.text ++ behind) =
      frame.before ++ (frame.mark ++ (frame.attributes ++ ['>'])) ++
        (root.text ++ frame.behind) := by
    rw [← whole, encloses.source_eq, tag]
    simp only [List.append_assoc, List.singleton_append]
  have length : Text.bytes start =
      Text.bytes (frame.before ++ (frame.mark ++ (frame.attributes ++ ['>']))) := by
    rw [← place, encloses.offset_eq]
    simp only [Text.bytes_append, Nat.zero_add, Nat.add_assoc]
    rfl
  obtain ⟨front, back⟩ := Text.append_inj_of_bytes split length
  have inStart : frame.mark ++ (frame.attributes ++ ['>']) ∈ start.tails := by
    rw [front, List.mem_tails]
    exact List.suffix_append _ _
  have written := oneTag _ inStart (Text.startsWithAnyCase_of_equal encloses.isMark _)
  rw [← Text.length_of_equalAnyCase encloses.isMark, List.drop_left] at written
  exact ⟨List.append_cancel_right written, (List.append_cancel_left back).symm⟩

theorem IsCut.startsBehindTag_iff (cut : frame.IsCut root) :
    frame.StartsBehindTag root ↔ (TagPlace.behind frame.attributes).isQuoted = false :=
  tagEnd?_iff cut.firstEnd

theorem EndsAtTag.drop (ends : frame.EndsAtTag) :
    frame.behind.drop Root.closingTag.length = [] ∨
      Root.endsTagName (frame.behind.drop Root.closingTag.length) = true := by
  rcases ends with nothing | ⟨close, rest, split, isMark, ends⟩
  · rw [nothing]
    exact .inl rfl
  · rwa [split, ← Text.length_of_equalAnyCase isMark, List.drop_left]

theorem IsCut.endsAtTag_iff (cut : frame.IsCut root) :
    frame.EndsAtTag ↔ frame.behind.drop Root.closingTag.length = [] ∨
      Root.endsTagName (frame.behind.drop Root.closingTag.length) = true := by
  refine ⟨EndsAtTag.drop, fun ends => ?_⟩
  rcases cut.mark with nothing | mark
  · exact .inl nothing
  · obtain ⟨close, rest, split, isMark, rfl⟩ := Text.exists_of_startsWithAnyCase mark
    exact .inr ⟨close, _, split, isMark, ends⟩

end Frame

namespace Root

/-- The frame of a body that is cut out behind an opening tag. -/
theorem exists_frame_body {offset : Nat} {text before tag inside close body after : Text}
    (found : Text.splitWhere (Text.startsWithAnyCase openingTag) text = some (before, tag))
    (named : endsTagName (tag.drop openingTag.length) = true)
    (closes : Text.splitWhere (Text.startsWith ['>']) (tag.drop openingTag.length) =
      some (inside, close))
    (split : close.drop 1 = body ++ after)
    (firstMark : ∀ tail ∈ body.tails, tail ≠ [] →
      Text.startsWithAnyCase closingTag (tail ++ after) = false)
    (mark : after = [] ∨ Text.startsWithAnyCase closingTag after = true) :
    ∃ frame : Frame,
      frame.Encloses offset text
        ⟨offset + Text.bytes before + Text.bytes openingTag + Text.bytes inside + 1, body⟩ ∧
      frame.IsCut ⟨offset + Text.bytes before + Text.bytes openingTag + Text.bytes inside + 1,
        body⟩ := by
  obtain ⟨rfl, isTag⟩ := Text.splitWhere_eq found
  obtain ⟨name, attributes, rfl, isMark, rest⟩ := Text.exists_of_startsWithAnyCase isTag
  obtain ⟨behind, rfl, whole, first⟩ := Text.exists_of_splitWhere_char closes
  rw [List.drop_one, List.tail_cons] at split
  rw [← rest] at whole named
  have bytes := Text.bytes_take_of_startsWithAnyCase isTag
  rw [← Text.length_of_equalAnyCase isMark, List.take_left] at bytes
  refine ⟨⟨before, name, inside, after⟩, ⟨?_, ?_, isMark, ?_⟩, first, firstMark, mark⟩
  · rw [Frame.tag, whole, split]
  · simp only [bytes]
    omega
  · rwa [Frame.tag, ← split, ← whole]

/-- **Every body that is found is cut at the first `>` and at the first mark of a closing tag.** -/
theorem exists_frame_styleElements (offset : Nat) (text : Text) :
    ∀ root ∈ styleElements offset text, ∃ frame : Frame,
      frame.Encloses offset text root ∧ frame.IsCut root := by
  fun_induction styleElements offset text with
  | case1 | case2 => exact List.forall_mem_nil _
  | case3 offset text before tag found attributes attributesAt named inside close closes rest bodyAt
      noEnd =>
      refine List.forall_mem_singleton.2 (exists_frame_body found named closes ?_ ?_ (.inl rfl))
      · exact (List.append_nil rest).symm
      · intro tail ends _
        rw [List.append_nil]
        exact Text.splitWhere_eq_none_iff.1 noEnd tail ((List.mem_tails _ _).1 ends)
  | case4 offset text before tag found attributes attributesAt named inside close closes rest bodyAt
      body after ends ih =>
      obtain ⟨split, mark, misses⟩ := Text.splitWhere_eq_some_iff.1 ends
      refine List.forall_mem_cons.2 ⟨exists_frame_body found named closes split ?_ (.inr mark), ?_⟩
      · exact fun tail ends written => misses tail written ((List.mem_tails _ _).1 ends)
      · intro root member
        obtain ⟨frame, encloses, cut⟩ := ih root member
        obtain ⟨start, whole, length⟩ := exists_start found closes
        have cutText : text = start ++ body ++ after := by
          rw [whole, List.append_assoc, ← split]
        rw [show bodyAt + Text.bytes body = offset + Text.bytes (start ++ body) by
          simp only [Text.bytes_append, bodyAt, attributesAt]
          omega] at encloses
        rw [cutText]
        exact ⟨_, encloses.within, cut.firstEnd, cut.firstMark, cut.mark⟩
  | case5 offset text before tag found attributes attributesAt other ih =>
      obtain ⟨whole, tagBytes⟩ := bytes_openingTag found
      intro root member
      obtain ⟨frame, encloses, cut⟩ := ih root member
      rw [show attributesAt = offset + Text.bytes (before ++ tag.take openingTag.length) by
        rw [tagBytes, ← Nat.add_assoc]] at encloses
      rw [whole]
      exact ⟨_, encloses.within, cut.firstEnd, cut.firstMark, cut.mark⟩

/-- **The stylesheets of markup are cut at the first `>` of a tag and at the first mark of a closing
tag.** That `>` ends the tag unless a quoted value is open there, and that mark ends the element
unless its name goes on. -/
theorem isCut_ofSource (source : Text) : ∀ root ∈ ofSource source .markup, ∃ frame : Frame,
    frame.Encloses 0 source root ∧ frame.IsCut root ∧
      (frame.StartsBehindTag root ↔ (TagPlace.behind frame.attributes).isQuoted = false) ∧
      (frame.EndsAtTag ↔ frame.behind.drop closingTag.length = [] ∨
        endsTagName (frame.behind.drop closingTag.length) = true) := by
  intro root member
  obtain ⟨frame, encloses, cut⟩ := exists_frame_styleElements 0 source root member
  exact ⟨frame, encloses, cut, cut.startsBehindTag_iff, cut.endsAtTag_iff⟩

/-- An element with quoted values in its tag and white space in its closing tag. -/
def quotedValues : Markup :=
  .element "<p>".toList
    ⟨"<STYLE".toList, " a='b' c=\"d\"".toList, by decide +kernel, by decide +kernel,
      by decide +kernel⟩
    ⟨"e</sty".toList, by decide +kernel⟩ ⟨"</Style".toList, by decide +kernel⟩
    (.ending "\n>".toList)

theorem isCut_ofSource_quotedValues :
    ⟨22, "e</sty".toList⟩ ∈ ofSource quotedValues.text .markup ∧ ∃ frame : Frame,
      frame.Encloses 0 quotedValues.text ⟨22, "e</sty".toList⟩ ∧
        frame.IsCut ⟨22, "e</sty".toList⟩ ∧ frame.StartsBehindTag ⟨22, "e</sty".toList⟩ ∧
        frame.EndsAtTag := by
  have member : ⟨22, "e</sty".toList⟩ ∈ ofSource quotedValues.text .markup := by
    rw [ofSource, Markup.styleElements_text (by decide +kernel)]
    decide +kernel
  obtain ⟨frame, encloses, cut, starts, ends⟩ := isCut_ofSource quotedValues.text _ member
  obtain ⟨attributes, behind⟩ :
      frame.attributes = " a='b' c=\"d\"".toList ∧ frame.behind = "</Style\n>".toList :=
    encloses.unique "<p><STYLE a='b' c=\"d\">".toList (by decide +kernel)
      (by decide +kernel) (by decide +kernel)
  refine ⟨member, frame, encloses, cut, starts.2 ?_, ends.2 ?_⟩
  · rw [attributes]
    decide +kernel
  · rw [behind]
    decide +kernel

/-- Markup whose closing tag has a longer name: `<style>a</styles>b</style>`. -/
def longerName : Markup :=
  .element [] .plain ⟨"a".toList, by decide +kernel⟩ ⟨"</style".toList, by decide +kernel⟩
    (.ending "s>b</style>".toList)

/-- Markup with a `>` in a quoted value: `<style a=">">b</style>`. -/
def quotedEnd : Markup :=
  .element [] { OpeningTag.plain with
      attributes := " a=\"".toList, separated := by decide +kernel, isOpen := by decide +kernel }
    ⟨"\">b".toList, by decide +kernel⟩ ⟨"</style".toList, by decide +kernel⟩ (.ending ">".toList)

/-- A closing tag with a longer name closes an element, and a `>` in a quoted value ends a tag. -/
theorem not_ends_ofSource :
    (∃ root ∈ ofSource longerName.text .markup, ∀ frame : Frame,
      frame.Encloses 0 longerName.text root → ¬ frame.EndsAtTag) ∧
    ∃ root ∈ ofSource quotedEnd.text .markup, ∀ frame : Frame,
      frame.Encloses 0 quotedEnd.text root → ¬ frame.StartsBehindTag root := by
  constructor
  · refine ⟨⟨7, "a".toList⟩, ?_, fun frame encloses ends => ?_⟩
    · rw [ofSource, Markup.styleElements_text (by decide +kernel)]
      decide +kernel
    · obtain ⟨_, behind⟩ : frame.attributes = [] ∧ frame.behind = "</styles>b</style>".toList :=
        encloses.unique "<style>".toList (by decide +kernel) (by decide +kernel)
          (by decide +kernel)
      have goesOn := ends.drop
      rw [behind] at goesOn
      exact absurd goesOn (by decide +kernel)
  · refine ⟨⟨11, "\">b".toList⟩, ?_, fun frame encloses starts => ?_⟩
    · rw [ofSource, Markup.styleElements_text (by decide +kernel)]
      decide +kernel
    · obtain ⟨attributes, _⟩ :
          frame.attributes = " a=\"".toList ∧ frame.behind = "</style>".toList :=
        encloses.unique "<style a=\">".toList (by decide +kernel) (by decide +kernel)
          (by decide +kernel)
      rw [Frame.StartsBehindTag, Frame.tag, attributes, tagEnd?_iff (by decide +kernel)] at starts
      exact absurd starts (by decide +kernel)

end Root

end ScssLint
