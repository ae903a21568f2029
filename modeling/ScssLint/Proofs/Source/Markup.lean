import ScssLint.Proofs.Source.Roots
import ScssLint.Proofs.Text.Searching

/-! # The elements of a markup document

A document is a sequence of gaps and elements (`Markup`). Neither a mark of a tag nor anything in a
gap is taken for the start of an element (`Root.styleElements_append`,
`Root.styleElements_gap`), so the stylesheets of a document are the bodies of its elements
(`Markup.ofSource_text`).
-/

namespace ScssLint

/-- What is said of the first character is decided by looking at it, and not by looking at all
characters. -/
instance decidableForallHead (holds : Char → Prop) [DecidablePred holds] :
    (text : Text) → Decidable (∀ c ∈ text.head?, holds c)
  | [] => isTrue fun _ member => absurd member (Option.not_mem_none _)
  | c :: _ => decidable_of_iff (holds c)
      ⟨fun here _ member => Option.mem_some.1 member ▸ here, fun all => all c rfl⟩

/-- An opening tag: its mark in any case and `>`, with nothing between them or with attributes
behind a slash or white space. -/
structure OpeningTag where
  mark : Text
  attributes : Text
  isMark : Text.equalAnyCase Root.openingTag mark = true
  separated : ∀ c ∈ attributes.head?, c = '/' ∨ isSpace c = true
  isOpen : '>' ∉ attributes

namespace OpeningTag

/-- How the tag is written. -/
def text (tag : OpeningTag) : Text :=
  tag.mark ++ (tag.attributes ++ ['>'])

/-- The tag without attributes, in lower case. -/
def plain : OpeningTag :=
  ⟨"<style".toList, [], by decide +kernel, by decide +kernel, by decide +kernel⟩

end OpeningTag

/-- How a closing tag begins, in any case. -/
structure ClosingMark where
  text : Text
  isMark : Text.equalAnyCase Root.closingTag text = true

/-- What an element holds: no closing tag begins in it. -/
structure StyleBody where
  text : Text
  noClosing : ∀ tail ∈ text.tails, Text.startsWithAnyCase Root.closingTag tail = false

/-- A markup document. -/
inductive Markup where
  /-- The end of a document. -/
  | ending (gap : Text)
  /-- A last element that is not closed. -/
  | unclosed (gap : Text) (tag : OpeningTag) (body : StyleBody)
  /-- An element with what stands in front of it and behind it. -/
  | element (gap : Text) (tag : OpeningTag) (body : StyleBody) (close : ClosingMark) (rest : Markup)

/-- Whether no element starts in a gap that stands in front of `behind`: where the mark of an
opening tag stands in it, the name goes on or the document ends. -/
def IsGap (gap behind : Text) : Prop :=
  ∀ tail ∈ gap.tails, Text.startsWithAnyCase Root.openingTag tail = true →
    ∀ c ∈ (tail.drop Root.openingTag.length ++ behind).head?,
      c ≠ '>' ∧ c ≠ '/' ∧ isSpace c = false

instance (gap behind : Text) : Decidable (IsGap gap behind) :=
  inferInstanceAs (Decidable (∀ tail ∈ gap.tails, _ → _))

namespace Markup

/-- How a document is written. -/
def text : Markup → Text
  | ending gap => gap
  | unclosed gap tag body => gap ++ (tag.text ++ body.text)
  | element gap tag body close rest =>
      gap ++ (tag.text ++ (body.text ++ (close.text ++ rest.text)))

/-- Whether no element starts in the gaps of a document. -/
def HasGaps : Markup → Prop
  | ending gap => IsGap gap []
  | unclosed gap tag body => IsGap gap (tag.text ++ body.text)
  | element gap tag body close rest =>
      IsGap gap (tag.text ++ (body.text ++ (close.text ++ rest.text))) ∧ rest.HasGaps

instance decidableHasGaps : (markup : Markup) → Decidable markup.HasGaps
  | ending gap => inferInstanceAs (Decidable (IsGap gap []))
  | unclosed gap _ _ => inferInstanceAs (Decidable (IsGap gap _))
  | element _ _ _ _ rest =>
      have := decidableHasGaps rest
      inferInstanceAs (Decidable (IsGap _ _ ∧ rest.HasGaps))

/-- The bodies of the elements of a document that starts at `offset`, each with its offset. -/
def bodies (offset : Nat) : Markup → List Root
  | ending _ => []
  | unclosed gap tag body => [⟨offset + Text.bytes (gap ++ tag.text), body.text⟩]
  | element gap tag body close rest =>
      ⟨offset + Text.bytes (gap ++ tag.text), body.text⟩ ::
        rest.bodies (offset + Text.bytes (gap ++ tag.text ++ body.text ++ close.text))

end Markup

namespace Root

variable {offset : Nat} {text before tag behind : Text}

theorem endsTagName_eq_false_iff :
    endsTagName text = false ↔ ∀ c ∈ text.head?, c ≠ '>' ∧ c ≠ '/' ∧ isSpace c = false := by
  cases text with
  | nil => simp [endsTagName]
  | cons c rest => simp [endsTagName, and_assoc]

/-! ### One step of the search -/

/-- The elements from the end of the name in an opening tag on. -/
def elementsBehindName (offset : Nat) (text : Text) : List Root :=
  if endsTagName text then
    match Text.splitWhere (Text.startsWith ['>']) text with
    | none => []
    | some (inside, close) =>
        let bodyAt := offset + Text.bytes inside + 1
        match Text.splitWhere (Text.startsWithAnyCase closingTag) (close.drop 1) with
        | none => [⟨bodyAt, close.drop 1⟩]
        | some (body, after) => ⟨bodyAt, body⟩ :: styleElements (bodyAt + Text.bytes body) after
  else
    styleElements offset text

theorem styleElements_eq (offset : Nat) (text : Text) :
    styleElements offset text =
      match Text.splitWhere (Text.startsWithAnyCase openingTag) text with
      | none => []
      | some (before, tag) =>
          elementsBehindName (offset + Text.bytes before + Text.bytes openingTag)
            (tag.drop openingTag.length) := by
  rw [styleElements]
  split
  · rename_i nowhere
    rw [nowhere]
  · rename_i before tag found
    rw [found]
    dsimp only
    rw [elementsBehindName]
    split
    · split
      · rename_i unclosed
        rw [unclosed]
      · rename_i inside close closes
        rw [closes]
        dsimp only
        split <;> rename_i ends <;> rw [ends]
    · rfl

/-- The search passes over a part in which no mark of an opening tag starts. -/
theorem styleElements_append
    (misses : ∀ tail, tail ≠ [] → tail <:+ text →
      Text.startsWithAnyCase openingTag (tail ++ behind) = false) :
    styleElements offset (text ++ behind) = styleElements (offset + Text.bytes text) behind := by
  rw [styleElements_eq, styleElements_eq _ behind, Text.splitWhere_append misses]
  cases Text.splitWhere (Text.startsWithAnyCase openingTag) behind with
  | none => rfl
  | some found => simp only [Option.map_some, Text.bytes_append, Nat.add_assoc]

theorem styleElements_mark {mark : Text} (isMark : Text.equalAnyCase openingTag mark = true)
    (behind : Text) :
    styleElements offset (mark ++ behind) =
      elementsBehindName (offset + Text.bytes mark) behind := by
  have starts := Text.startsWithAnyCase_of_equal isMark behind
  have length := Text.length_of_equalAnyCase isMark
  have bytes := Text.bytes_take_of_startsWithAnyCase starts
  rw [← length, List.take_left] at bytes
  rw [styleElements_eq, Text.splitWhere_of_found starts]
  dsimp only
  rw [← length, List.drop_left, Text.bytes_nil, Nat.add_zero, bytes]

/-! ### Marks and gaps -/

/-- Whether a text is empty or starts with `<`, so that no mark stands across its start. -/
def StartsTag (text : Text) : Prop :=
  ∀ c ∈ text.head?, c.toLower = '<'

theorem startsWithAnyCase_openingTag (starts : StartsTag behind) (written : text ≠ [])
    (found : Text.startsWithAnyCase openingTag (text ++ behind) = true) :
    Text.startsWithAnyCase openingTag text = true := by
  refine Text.startsWithAnyCase_append written (fun c head => ?_) found
  rw [starts c head]
  decide

theorem startsWithAnyCase_closingTag (starts : StartsTag behind) (written : text ≠ [])
    (found : Text.startsWithAnyCase closingTag (text ++ behind) = true) :
    Text.startsWithAnyCase closingTag text = true := by
  refine Text.startsWithAnyCase_append written (fun c head => ?_) found
  rw [starts c head]
  decide

/-- The search passes over a gap. -/
theorem styleElements_gap (offset : Nat) {gap behind : Text} (isGap : IsGap gap behind)
    (starts : StartsTag behind) :
    styleElements offset (gap ++ behind) = styleElements (offset + Text.bytes gap) behind := by
  cases found : Text.splitWhere (Text.startsWithAnyCase openingTag) gap with
  | none =>
      have nowhere := Text.splitWhere_eq_none_iff.1 found
      refine styleElements_append fun tail written ends => Bool.eq_false_iff.2 fun mark => ?_
      have here := startsWithAnyCase_openingTag starts written mark
      rw [nowhere tail ends] at here
      exact Bool.noConfusion here
  | some split =>
      obtain ⟨before, tag⟩ := split
      obtain ⟨rfl, isTag, misses⟩ := Text.splitWhere_eq_some_iff.1 found
      obtain ⟨mark, rest, rfl, isMark, rest_eq⟩ := Text.exists_of_startsWithAnyCase isTag
      have other : endsTagName (rest ++ behind) = false := by
        rw [endsTagName_eq_false_iff, rest_eq]
        exact isGap _ ((List.mem_tails _ _).2 (List.suffix_append _ _)) isTag
      have isGapRest : IsGap rest behind := fun tail ends =>
        isGap tail ((List.mem_tails _ _).2 (((List.mem_tails _ _).1 ends).trans
          ((List.suffix_append mark rest).trans (List.suffix_append before _))))
      have shorter : rest.length < (before ++ (mark ++ rest)).length := by
        have length := Text.length_of_equalAnyCase isMark
        have positive : 0 < openingTag.length := by decide
        simp only [List.length_append]
        omega
      have passed : styleElements offset (before ++ (mark ++ (rest ++ behind))) =
          styleElements (offset + Text.bytes before) (mark ++ (rest ++ behind)) := by
        refine styleElements_append fun tail written ends => Bool.eq_false_iff.2 fun found => ?_
        have here := misses tail written ends
        have inGap := List.append_ne_nil_of_left_ne_nil written (mark ++ rest)
        rw [startsWithAnyCase_openingTag starts inGap] at here
        · exact Bool.noConfusion here
        · rwa [List.append_assoc, List.append_assoc]
      rw [List.append_assoc, List.append_assoc, passed, styleElements_mark isMark,
        elementsBehindName, if_neg (Bool.eq_false_iff.1 other),
        styleElements_gap _ isGapRest starts, Text.bytes_append, Text.bytes_append]
      simp only [Nat.add_assoc]
termination_by gap.length

theorem startsTag_of_isMark {word mark : Text}
    (isMark : Text.equalAnyCase ('<' :: word) mark = true) (behind : Text) :
    StartsTag (mark ++ behind) := by
  cases mark with
  | nil => exact Bool.noConfusion isMark
  | cons c mark =>
      obtain ⟨same, _⟩ := List.cons.inj (beq_iff_eq.1 isMark)
      intro d head
      obtain rfl := Option.some.inj head
      exact same.symm

/-- The search passes over the mark of a closing tag. -/
theorem styleElements_close (close : ClosingMark) (behind : Text) :
    styleElements offset (close.text ++ behind) =
      styleElements (offset + Text.bytes close.text) behind := by
  refine styleElements_append fun tail written ends => Bool.eq_false_iff.2 fun starts => ?_
  obtain ⟨c, rest, rfl⟩ := List.exists_cons_of_ne_nil written
  have inClose : (c :: rest).map Char.toLower <:+ closingTag.map Char.toLower := by
    rw [beq_iff_eq.1 close.isMark]
    exact ends.map Char.toLower
  rw [Text.startsWithAnyCase_iff, List.cons_append] at starts
  obtain ⟨isAngle, named⟩ := List.cons_prefix_cons.1 starts
  -- the mark holds one `<`, and a slash follows it
  rcases List.suffix_cons_iff.1 inClose with whole | inName
  · obtain ⟨_, name⟩ := List.cons.inj whole
    rw [List.map_append, name] at named
    exact absurd (List.cons_prefix_cons.1 named).1 (by decide)
  · have member : '<' ∈ ['/', 's', 't', 'y', 'l', 'e'] := by
      refine inName.subset ?_
      rw [List.map_cons, ← isAngle]
      exact List.mem_cons_self
    exact absurd member (by decide)

/-- An opening tag is read, and the search for the closing tag starts behind it. -/
theorem styleElements_tag (tag : OpeningTag) (rest : Text) :
    styleElements offset (tag.text ++ rest) =
      match Text.splitWhere (Text.startsWithAnyCase closingTag) rest with
      | none => [⟨offset + Text.bytes tag.text, rest⟩]
      | some (body, after) =>
          ⟨offset + Text.bytes tag.text, body⟩ ::
            styleElements (offset + Text.bytes tag.text + Text.bytes body) after := by
  have named : endsTagName (tag.attributes ++ '>' :: rest) = true := by
    cases attributes : tag.attributes with
    | nil => rfl
    | cons c more =>
        have separated := tag.separated c (attributes ▸ rfl)
        rcases separated with rfl | space
        · rfl
        · rw [List.cons_append, endsTagName, space, Bool.or_true]
  have at_body : offset + Text.bytes tag.mark + Text.bytes tag.attributes + 1 =
      offset + Text.bytes tag.text := by
    simp only [OpeningTag.text, Text.bytes_append, Nat.add_assoc]
    rfl
  rw [OpeningTag.text, List.append_assoc, List.append_assoc, styleElements_mark tag.isMark,
    List.singleton_append, elementsBehindName, if_pos named, Text.splitWhere_char tag.isOpen]
  dsimp only
  rw [List.drop_one, List.tail_cons, at_body, OpeningTag.text]

/-- The mark of the closing tag is found behind the body. -/
theorem splitWhere_body (body : StyleBody) (close : ClosingMark) (behind : Text) :
    Text.splitWhere (Text.startsWithAnyCase closingTag) (body.text ++ (close.text ++ behind)) =
      some (body.text, close.text ++ behind) := by
  refine Text.splitWhere_eq_some_iff.2
    ⟨rfl, Text.startsWithAnyCase_of_equal close.isMark behind, ?_⟩
  intro tail written ends
  refine Bool.eq_false_iff.2 fun found => ?_
  have inBody := body.noClosing tail ((List.mem_tails _ _).2 ends)
  have starts := startsTag_of_isMark close.isMark behind
  rw [startsWithAnyCase_closingTag starts written found] at inBody
  exact Bool.noConfusion inBody

theorem splitWhere_lastBody (body : StyleBody) :
    Text.splitWhere (Text.startsWithAnyCase closingTag) body.text = none :=
  Text.splitWhere_eq_none_iff.2 fun tail ends =>
    body.noClosing tail ((List.mem_tails _ _).2 ends)

end Root

namespace Markup

theorem styleElements_text {markup : Markup} (gaps : markup.HasGaps) (offset : Nat) :
    Root.styleElements offset markup.text = markup.bodies offset := by
  induction markup generalizing offset with
  | ending gap =>
      have passed := Root.styleElements_gap offset gaps (fun _ head => nomatch head)
      rw [List.append_nil] at passed
      rw [text, passed, bodies, Root.styleElements_eq]
      rfl
  | unclosed gap tag body =>
      have starts : Root.StartsTag (tag.text ++ body.text) := by
        rw [OpeningTag.text, List.append_assoc]
        exact Root.startsTag_of_isMark tag.isMark _
      rw [text, Root.styleElements_gap _ gaps starts, Root.styleElements_tag,
        Root.splitWhere_lastBody, bodies, Text.bytes_append, Nat.add_assoc]
  | element gap tag body close rest ih =>
      obtain ⟨isGap, gaps⟩ := gaps
      have starts : Root.StartsTag (tag.text ++ (body.text ++ (close.text ++ rest.text))) := by
        rw [OpeningTag.text, List.append_assoc]
        exact Root.startsTag_of_isMark tag.isMark _
      rw [text, Root.styleElements_gap _ isGap starts, Root.styleElements_tag, Root.splitWhere_body]
      dsimp only
      rw [Root.styleElements_close, ih gaps, bodies]
      simp only [Text.bytes_append, Nat.add_assoc]

/-- **The stylesheets of a document are the bodies of its elements**, each with its offset. -/
theorem ofSource_text (markup : Markup) (gaps : markup.HasGaps) :
    Root.ofSource markup.text .markup = markup.bodies 0 :=
  styleElements_text gaps 0

/-- Two elements in any case, the second one not closed, between names that go on. -/
def twoElements : Markup :=
  .element "é<styles></STYLE\n".toList
    ⟨"<Style".toList, "\tlang=scss <style".toList, by decide +kernel, by decide +kernel,
      by decide +kernel⟩
    ⟨"é<style></p>".toList, by decide +kernel⟩ ⟨"</STYLE".toList, by decide +kernel⟩
    (.unclosed ">é<style<STYLE".toList .plain ⟨"</ style>".toList, by decide +kernel⟩)

theorem ofSource_text_twoElements :
    twoElements.HasGaps ∧ Root.ofSource twoElements.text .markup =
      [⟨42, "é<style></p>".toList⟩, ⟨84, "</ style>".toList⟩] := by
  have gaps : twoElements.HasGaps := by decide +kernel
  exact ⟨gaps, (ofSource_text twoElements gaps).trans (by decide +kernel)⟩

end Markup

end ScssLint
