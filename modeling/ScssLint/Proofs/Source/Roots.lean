import ScssLint.Proofs.Text.Utf8
import ScssLint.Source.Root

/-! # Where stylesheets stand in a file

The mark of an opening tag is found in any case, and the case of a letter does not change its length
(`Text.bytes_map_toLower`), so every stylesheet stands in the file at its offset
(`Root.standsIn_ofSource`), one behind the other (`Root.pairwise_ofSource`).
-/

namespace ScssLint

namespace Text

theorem utf8Size_toLower (c : Char) : c.toLower.utf8Size = c.utf8Size := by
  unfold Char.toLower
  split
  · rename_i upper
    have bounds : 65 ≤ c.toNat ∧ c.toNat ≤ 90 := upper
    have shifted : (c.val + ('a'.val - 'A'.val)).toNat = c.toNat + 32 := by
      rw [UInt32.toNat_add]
      change (c.toNat + 32) % 4294967296 = c.toNat + 32
      omega
    have ascii : isAscii c = true := by
      rw [isAscii, decide_eq_true_eq]
      omega
    rw [utf8Size_of_ascii ascii]
    apply utf8Size_of_ascii
    rw [isAscii, decide_eq_true_eq]
    change (c.val + ('a'.val - 'A'.val)).toNat < 128
    omega
  · rfl

theorem bytes_map_toLower (text : Text) : bytes (text.map Char.toLower) = bytes text := by
  induction text with
  | nil => rfl
  | cons c rest ih => rw [List.map_cons, bytes_cons, bytes_cons, ih, utf8Size_toLower]

/-- A beginning that is found in any case is as long as what is looked for. -/
theorem bytes_take_of_startsWithAnyCase {start text : Text}
    (starts : startsWithAnyCase start text = true) :
    bytes (text.take start.length) = bytes start := by
  obtain ⟨rest, same⟩ := List.isPrefixOf_iff_prefix.1 starts
  have long := congrArg List.length same
  have short : (text.take start.length).length ≤ start.length := List.length_take_le _ _
  simp only [List.length_append, List.length_map] at long
  obtain rfl : rest = [] := List.length_eq_zero_iff.1 (by omega)
  rw [List.append_nil] at same
  rw [← bytes_map_toLower, ← same, bytes_map_toLower]

end Text

namespace Root

/-- Whether the text of a root stands in a text, which starts at `offset`, where the root says. -/
def StandsIn (offset : Nat) (source : Text) (root : Root) : Prop :=
  ∃ before behind, source = before ++ root.text ++ behind ∧
    root.offset = offset + Text.bytes before

theorem StandsIn.behind {offset : Nat} {start source : Text} {root : Root}
    (stands : root.StandsIn (offset + Text.bytes start) source) :
    root.StandsIn offset (start ++ source) := by
  obtain ⟨before, behind, rfl, place⟩ := stands
  refine ⟨start ++ before, behind, ?_, ?_⟩
  · simp only [List.append_assoc]
  · rw [place, Text.bytes_append, Nat.add_assoc]

/-- The text around an opening tag whose mark is found in any case. -/
theorem bytes_openingTag {before tag text : Text}
    (found : Text.splitWhere (Text.startsWithAnyCase openingTag) text = some (before, tag)) :
    text = before ++ tag.take openingTag.length ++ tag.drop openingTag.length ∧
      Text.bytes (before ++ tag.take openingTag.length) =
        Text.bytes before + Text.bytes openingTag := by
  obtain ⟨whole, starts⟩ := Text.splitWhere_eq found
  rw [List.append_assoc, List.take_append_drop, Text.bytes_append,
    Text.bytes_take_of_startsWithAnyCase starts]
  exact ⟨whole, rfl⟩

/-- The text in front of the body of an element. -/
theorem exists_start {before tag text inside close : Text}
    (found : Text.splitWhere (Text.startsWithAnyCase openingTag) text = some (before, tag))
    (closes : Text.splitWhere (Text.startsWith ['>']) (tag.drop openingTag.length) =
      some (inside, close)) :
    ∃ start, text = start ++ close.drop 1 ∧
      Text.bytes start = Text.bytes before + Text.bytes openingTag + Text.bytes inside + 1 := by
  obtain ⟨whole, tagBytes⟩ := bytes_openingTag found
  obtain ⟨attributes, starts⟩ := Text.splitWhere_eq closes
  obtain ⟨rest, rfl⟩ := List.isPrefixOf_iff_prefix.1 starts
  refine ⟨before ++ tag.take openingTag.length ++ (inside ++ ['>']), ?_, ?_⟩
  · rw [whole, attributes, List.append_assoc _ (inside ++ ['>']), List.append_assoc inside]
    rfl
  · rw [Text.bytes_append, tagBytes, Text.bytes_append, ← Nat.add_assoc]
    rfl

/-- **The body of a `style` element stands at its offset.** -/
theorem standsIn_styleElements (offset : Nat) (text : Text) :
    ∀ root ∈ styleElements offset text, root.StandsIn offset text := by
  fun_induction styleElements offset text with
  | case1 | case2 => exact List.forall_mem_nil _
  | case3 offset text before tag found attributes attributesAt named inside close closes rest bodyAt
      noEnd =>
      obtain ⟨start, whole, length⟩ := exists_start found closes
      refine List.forall_mem_singleton.2 ⟨start, [], ?_, ?_⟩
      · rw [List.append_nil]
        exact whole
      · simp only [bodyAt, attributesAt]
        omega
  | case4 offset text before tag found attributes attributesAt named inside close closes rest bodyAt
      body after ends ih =>
      obtain ⟨start, whole, length⟩ := exists_start found closes
      have cut : text = start ++ body ++ after := by
        rw [whole, List.append_assoc, ← (Text.splitWhere_eq ends).1]
      have place : bodyAt = offset + Text.bytes start := by
        simp only [bodyAt, attributesAt]
        omega
      refine List.forall_mem_cons.2 ⟨⟨start, after, cut, place⟩, fun root member => ?_⟩
      have stands := ih root member
      rw [place, Nat.add_assoc, ← Text.bytes_append] at stands
      rw [cut]
      exact stands.behind
  | case5 offset text before tag found attributes attributesAt other ih =>
      obtain ⟨whole, tagBytes⟩ := bytes_openingTag found
      intro root member
      have stands := ih root member
      rw [show attributesAt = offset + Text.bytes (before ++ tag.take openingTag.length) by
        rw [tagBytes, ← Nat.add_assoc]] at stands
      rw [whole]
      exact stands.behind

/-- `style` elements stand one behind the other. -/
theorem pairwise_styleElements (offset : Nat) (text : Text) :
    (styleElements offset text).Pairwise fun first second =>
      first.offset + Text.bytes first.text ≤ second.offset := by
  fun_induction styleElements offset text with
  | case1 | case2 => exact .nil
  | case3 => exact List.pairwise_singleton _ _
  | case4 offset text before tag found attributes attributesAt named inside close closes rest bodyAt
      body after ends ih =>
      refine List.pairwise_cons.2 ⟨fun root member => ?_, ih⟩
      obtain ⟨_, _, _, place⟩ := standsIn_styleElements (bodyAt + Text.bytes body) after root member
      rw [place]
      exact Nat.le_add_right _ _
  | case5 offset text before tag found attributes attributesAt other ih => exact ih

/-- **The stylesheets of a file stand one behind the other.** -/
theorem pairwise_ofSource (source : Text) (dialect : Dialect) :
    (ofSource source dialect).Pairwise fun first second =>
      first.offset + Text.bytes first.text ≤ second.offset := by
  cases dialect with
  | css | scss => exact List.pairwise_singleton _ _
  | markup => exact pairwise_styleElements 0 source

/-- **Each stylesheet of a file stands at its offset.** -/
theorem standsIn_ofSource (source : Text) (dialect : Dialect) :
    ∀ root ∈ ofSource source dialect, root.StandsIn 0 source := by
  cases dialect with
  | css | scss => exact List.forall_mem_singleton.2 ⟨[], [], (List.append_nil source).symm, rfl⟩
  | markup => exact standsIn_styleElements 0 source

end Root

end ScssLint
