import ScssLint.Proofs.Linter.Order

/-! # Linting markup files

Linting a markup file is linting its `style` elements, each on its own, and moving what is found to
where the element stands (`Linter.lintSource_markup`).
-/

namespace ScssLint

namespace Linter

variable {path : Path} {source : Text}

/-- What is found in a stylesheet stands inside of it, also at its place in the file. -/
theorem inside_of_mem_shift {linter : Linter} {root : Root} :
    ∀ finding ∈ (linter.findings root.text).map (Finding.shift root.offset),
      root.offset ≤ finding.offset ∧
        finding.offset < root.offset + Text.bytes root.text := by
  refine List.forall_mem_map.2 fun finding found => ?_
  have inside := offset_lt_of_mem_findings finding found
  exact ⟨Nat.le_add_right _ _, Nat.add_lt_add_left inside _⟩

/-- **A linter sorts what it finds in each stylesheet**, and puts the stylesheets in order. -/
theorem map_finding_lintSource (linter : Linter) (path : Path) (source : Text) :
    (linter.lintSource path source).map Diagnostic.finding =
      (Root.ofSource source path.dialect).flatMap fun root =>
        ((linter.findings root.text).mergeSort fun first second =>
          first.offset ≤ second.offset).map (Finding.shift root.offset) := by
  have found : (linter.reports path source).map Diagnostic.finding =
      (Root.ofSource source path.dialect).flatMap fun root =>
        (linter.findings root.text).map (Finding.shift root.offset) := by
    rw [reports, List.map_flatMap]
    refine congrArg (Root.ofSource source path.dialect).flatMap (funext fun root => ?_)
    rw [List.map_map]
    rfl
  have apart : (Root.ofSource source path.dialect).Pairwise fun root other =>
      ∀ first ∈ (linter.findings root.text).map (Finding.shift root.offset),
        ∀ second ∈ (linter.findings other.text).map (Finding.shift other.offset),
          first.offset ≤ second.offset := by
    refine (Root.pairwise_ofSource source path.dialect).imp
      fun behind first known second known' => ?_
    have before := (inside_of_mem_shift first known).2
    have after := (inside_of_mem_shift second known').1
    omega
  have sorted := @KeyOrder.map_mergeSort Diagnostic Finding (·.location.offset) (·.offset)
    Diagnostic.finding (fun _ _ => Iff.rfl) (linter.reports path source)
  rw [lintSource_eq, sorted, found, KeyOrder.mergeSort_flatMap apart]
  refine congrArg (Root.ofSource source path.dialect).flatMap (funext fun root => ?_)
  have moved (first second : Finding) :
      (first.shift root.offset).offset ≤ (second.shift root.offset).offset ↔
        first.offset ≤ second.offset := Nat.add_le_add_iff_left
  exact (KeyOrder.map_mergeSort moved _).symm

/-- Any other file is a stylesheet as a whole. -/
theorem map_finding_sheet (linter : Linter) (isSheet : path.dialect ≠ .markup) (text : Text) :
    (linter.lintSource path text).map Diagnostic.finding =
      (linter.findings text).mergeSort fun first second => first.offset ≤ second.offset := by
  have whole : Root.ofSource text path.dialect = [⟨0, text⟩] := by
    cases shape : path.dialect with
    | css | scss => rfl
    | markup => exact absurd shape isSheet
  rw [map_finding_lintSource, whole, List.flatMap_singleton]
  exact (List.map_congr_left fun finding _ => finding.shift_zero).trans (List.map_id _)

/-- A diagnostic shows the line and the column of its offset. -/
theorem lineCol_of_mem_lintSource {linter : Linter} :
    ∀ found ∈ linter.lintSource path source,
      (found.location.line, found.location.column) =
        (LineIndex.ofText source).lineCol source found.location.offset := by
  intro found reported
  rw [lintSource_eq, List.mem_mergeSort] at reported
  obtain ⟨root, _, reported⟩ := List.mem_flatMap.1 reported
  obtain ⟨finding, _, rfl⟩ := List.mem_map.1 reported
  rfl

/-- **Linting a markup file is linting its `style` elements.** -/
theorem lintSource_markup (linter : Linter) (path other : Path) (source : Text)
    (isMarkup : path.dialect = .markup) (isSheet : other.dialect ≠ .markup) :
    ((linter.lintSource path source).map Diagnostic.finding =
      (Root.ofSource source .markup).flatMap fun root =>
        ((linter.lintSource other root.text).map Diagnostic.finding).map
          (Finding.shift root.offset)) ∧
    ∀ found ∈ linter.lintSource path source,
      (found.location.line, found.location.column) =
        (LineIndex.ofText source).lineCol source found.location.offset := by
  refine ⟨?_, lineCol_of_mem_lintSource⟩
  rw [map_finding_lintSource, isMarkup]
  refine congrArg (Root.ofSource source .markup).flatMap (funext fun root => ?_)
  rw [map_finding_sheet linter isSheet]

/-- A component with two style elements. -/
def twoStyles : Text :=
  "<style>\n$a: 1;</style>\n<STYLE lang=x>.b\x7B &-c \x7B\x7D $d: 2 \x7D".toList

/-- Both elements are linted. -/
theorem lintSource_markup_twoStyles :
    let linter : Linter := ⟨[.selectorNoUnionClassName, .dollarVariableDefault false]⟩
    ((linter.lintSource ⟨"a.vue"⟩ twoStyles).map Diagnostic.finding =
      (Root.ofSource twoStyles .markup).flatMap fun root =>
        ((linter.lintSource ⟨"a.scss"⟩ root.text).map Diagnostic.finding).map
          (Finding.shift root.offset)) ∧
    ∀ found ∈ linter.lintSource ⟨"a.vue"⟩ twoStyles,
      (found.location.line, found.location.column) =
        (LineIndex.ofText twoStyles).lineCol twoStyles found.location.offset := by
  intro linter
  exact lintSource_markup linter ⟨"a.vue"⟩ ⟨"a.scss"⟩ twoStyles (by decide +kernel)
    (by decide +kernel)

end Linter

end ScssLint
