import ScssLint.Linter
import ScssLint.Proofs.Project.Stages
import ScssLint.Proofs.Text.Utf8

/-! # From settings to rules

Three parts of the program know the names of the rules: the registry, the readers of options and
the rules themselves. They agree, and so what a setting gives depends on whether the registry has
its name and whether it is switched on (`Rule.followsRegistry`). Settings become rules in the order
of their names, which is the order of the names' bytes. A linter can be made of a configuration
unless one of its settings fails; what stops it is the failing setting whose name comes first, and
its rules are those that the configuration switches on (`Linter.followsConfig`).
-/

namespace ScssLint

open Steps

/-! ### One setting -/

namespace Rule

variable {name : String} {setting : RuleSetting}

theorem lookup_eq_none_iff_names {α : Type} {known : List (String × α)} :
    known.lookup name = none ↔ name ∉ known.map (·.1) := by
  rw [List.lookup_eq_none_iff, List.mem_map, not_exists]
  refine forall_congr' fun entry => ?_
  rw [bne_iff_ne, not_and]
  exact imp_congr_right fun _ => ne_comm

/-- The names of the readers are those of the registry. -/
theorem lookup_readers_eq_none_iff : readers.lookup name = none ↔ descriptionOf? name = none := by
  have names : readers.map (·.1) = registry.map (·.1) := rfl
  rw [descriptionOf?, lookup_eq_none_iff_names, lookup_eq_none_iff_names, names]

/-- A reader gives a rule of the name that it has. -/
theorem name_of_reader {ofOptions : Option OptionTable → Except Mismatch Rule}
    {options? : Option OptionTable} {rule : Rule} (reader : (name, ofOptions) ∈ readers)
    (read : ofOptions options? = .ok rule) : rule.name = name := by
  simp only [readers, List.mem_cons, Prod.mk.injEq, List.not_mem_nil, or_false] at reader
  rcases reader with ⟨rfl, rfl⟩ | ⟨rfl, rfl⟩ | ⟨rfl, rfl⟩
  · obtain ⟨ignoreLocal, _, given⟩ := bind_eq_ok_iff.1 read
    cases given
    rfl
  · cases options? with
    | none => cases read
    | some table =>
        obtain ⟨⟨expect?, ignoreCommands⟩, _, given⟩ := bind_eq_ok_iff.1 read
        cases expect? with
        | none => cases given
        | some expectation =>
            cases given
            rfl
  · obtain ⟨_, _, given⟩ := bind_eq_ok_iff.1 read
    cases given
    rfl

/-- Whether what a setting gives is decided by the registry and by whether it is switched on. -/
structure FollowsRegistry (name : String) (setting : RuleSetting) : Prop where
  /-- A setting whose name the registry does not have fails, even if it is switched off. -/
  unknown : descriptionOf? name = none → configure name setting = .error (.unknownRule name)
  /-- A setting of a known rule gives none if it is switched off. -/
  off : descriptionOf? name ≠ none → setting.isEnabled = false → configure name setting = .ok none
  /-- Every known rule has a reader. -/
  reader : descriptionOf? name ≠ none → readers.lookup name ≠ none
  /-- The name of a known rule is never reported as unknown. -/
  known : descriptionOf? name ≠ none → ∀ other, configure name setting ≠ .error (.unknownRule other)
  /-- A setting that does not fail gives a rule of its name if and only if it is switched on. -/
  rule : ∀ rule?, configure name setting = .ok rule? →
    rule?.map Rule.name = if setting.isEnabled then some name else none

theorem configure_of_unknown (unknown : descriptionOf? name = none) :
    configure name setting = .error (.unknownRule name) := by
  rw [configure, unknown, Option.isNone_none, if_pos rfl]

theorem configure_of_off (known : descriptionOf? name ≠ none) (off : setting.isEnabled = false) :
    configure name setting = .ok none := by
  rw [configure, if_neg (mt Option.isNone_iff_eq_none.1 known), off, if_neg Bool.false_ne_true]

/-- A setting of a known rule that is switched on gives what the reader of the rule gives. -/
theorem configure_of_on (known : descriptionOf? name ≠ none) (on : setting.isEnabled = true) :
    ∃ ofOptions, (name, ofOptions) ∈ readers ∧
      configure name setting =
        ((ofOptions setting.options?).map some).mapError (.invalidOptions name) := by
  obtain ⟨ofOptions, found⟩ :=
    Option.ne_none_iff_exists'.1 (mt lookup_readers_eq_none_iff.1 known)
  obtain ⟨front, behind, split, _⟩ := List.lookup_eq_some_iff.1 found
  refine ⟨ofOptions, split ▸ List.mem_append_right front List.mem_cons_self, ?_⟩
  rw [configure, if_neg (mt Option.isNone_iff_eq_none.1 known), if_pos on, found]
  cases read : ofOptions setting.options? with
  | ok rule => simp only [read, Except.map, Except.mapError]
  | error mismatch => simp only [read, Except.map, Except.mapError]

/-- **A setting gives what the registry and the switch say.** -/
theorem followsRegistry (name : String) (setting : RuleSetting) : FollowsRegistry name setting where
  unknown := configure_of_unknown
  off := configure_of_off
  reader := mt lookup_readers_eq_none_iff.1
  known known other := by
    cases on : setting.isEnabled with
    | false => simp [configure_of_off known on]
    | true =>
        obtain ⟨ofOptions, _, given⟩ := configure_of_on known on
        rw [given]
        cases ofOptions setting.options? <;> simp [Except.map, Except.mapError]
  rule rule? configured := by
    by_cases known : descriptionOf? name = none
    · rw [configure_of_unknown known] at configured
      cases configured
    cases on : setting.isEnabled with
    | false =>
        rw [configure_of_off known on] at configured
        cases configured
        rfl
    | true =>
        obtain ⟨ofOptions, reader, given⟩ := configure_of_on known on
        rw [given, mapError_eq_ok_iff] at configured
        cases read : ofOptions setting.options? with
        | error mismatch =>
            rw [read] at configured
            cases configured
        | ok rule =>
            rw [read] at configured
            cases configured
            rw [Option.map_some, name_of_reader reader read, if_pos rfl]

end Rule

/-! ### All settings -/

/-- Whether a name comes before another one, byte by byte. -/
def ComesBefore (name other : String) : Prop :=
  Text.utf8 name.toList < Text.utf8 other.toList

theorem ComesBefore.asymm {name other : String} (before : ComesBefore name other) :
    ¬ ComesBefore other name :=
  List.lt_asymm before

theorem comesBefore_of_compare {name other : String} (before : compare name other = .lt) :
    ComesBefore name other :=
  Text.utf8_lt_utf8 (String.lt_iff.1 (compareOfLessAndEq_eq_lt.1 before))

theorem NameMap.pairwise_comesBefore {α : Type} (map : NameMap α) :
    map.items.Pairwise fun entry other => ComesBefore entry.1 other.1 :=
  map.ascending.imp comesBefore_of_compare

namespace Config

/-- Whether a setting of a configuration fails and those that come before it do not. -/
structure IsFirstFailing (config : Config) (entry : String × RuleSetting) : Prop where
  mem : entry ∈ config.rules.items
  fails : Fails (Rule.configure entry.1 entry.2)
  before : ∀ other ∈ config.rules.items, ComesBefore other.1 entry.1 →
    ¬ Fails (Rule.configure other.1 other.2)

/-- The first failing setting is the one whose name comes first. -/
theorem isFirst_iff_isFirstFailing {config : Config} {entry : String × RuleSetting} :
    IsFirst (fun entry => Fails (Rule.configure entry.1 entry.2)) config.rules.items entry ↔
      config.IsFirstFailing entry := by
  -- The names ascend, so what comes before an entry is what stands in front of it.
  have ascending := NameMap.pairwise_comesBefore config.rules
  constructor
  · intro first
    refine ⟨first.mem, first.holds_item, fun other member before => ?_⟩
    obtain ⟨front, behind, split, _, earlier⟩ := first
    rw [split, List.pairwise_append, List.pairwise_cons] at ascending
    obtain ⟨_, ⟨later, _⟩, _⟩ := ascending
    rw [split, List.mem_append, List.mem_cons] at member
    rcases member with inFront | rfl | isBehind
    · exact earlier other inFront
    · exact absurd before before.asymm
    · exact absurd before (later other isBehind).asymm
  · rintro ⟨member, fails, before⟩
    obtain ⟨front, behind, split⟩ := List.append_of_mem member
    refine ⟨front, behind, split, fails, fun other inFront => ?_⟩
    rw [split, List.pairwise_append] at ascending
    exact before other (split ▸ List.mem_append_left _ inFront)
      (ascending.2.2 other inFront entry List.mem_cons_self)

end Config

namespace Linter

variable {config : Config}

theorem names_of_mapM {entries : List (String × RuleSetting)} {rules : List (Option Rule)}
    (configured : entries.mapM (fun (name, setting) => Rule.configure name setting) = .ok rules) :
    (rules.filterMap id).map Rule.name = (entries.filter (·.2.isEnabled)).map (·.1) := by
  induction entries generalizing rules with
  | nil =>
      cases configured
      rfl
  | cons entry entries ih =>
      rw [List.mapM_cons] at configured
      obtain ⟨rule?, first, configured⟩ := bind_eq_ok_iff.1 configured
      obtain ⟨others, rest, configured⟩ := bind_eq_ok_iff.1 configured
      cases configured
      have here := (Rule.followsRegistry entry.1 entry.2).rule rule? first
      cases on : entry.2.isEnabled with
      | false =>
          rw [on, if_neg Bool.false_ne_true, Option.map_eq_none_iff] at here
          rw [here, List.filterMap_cons_none rfl, List.filter_cons, on, if_neg Bool.false_ne_true,
            ih rest]
      | true =>
          rw [on, if_pos rfl] at here
          obtain ⟨rule, rfl, named⟩ := Option.map_eq_some_iff.1 here
          rw [List.filterMap_cons_some (f := id) rfl, List.filter_cons, on, if_pos rfl,
            List.map_cons, List.map_cons, named, ih rest]

/-- Whether a linter is made of a configuration just as its settings say. -/
structure FollowsConfig (config : Config) : Prop where
  /-- It is decided by the registry and the switch what a setting gives. -/
  settings : ∀ name setting, Rule.FollowsRegistry name setting
  /-- No linter can be made if and only if a setting fails. -/
  fails : Fails (ofConfig config) ↔
    ∃ entry ∈ config.rules.items, Fails (Rule.configure entry.1 entry.2)
  /-- What stops the making is the failing setting whose name comes first. -/
  error : ∀ error, ofConfig config = .error error ↔
    ∃ entry, config.IsFirstFailing entry ∧ Rule.configure entry.1 entry.2 = .error error
  /-- The rules are those that are switched on. -/
  names : ∀ linter, ofConfig config = .ok linter →
    linter.rules.map Rule.name = config.enabledRules
  /-- The names of the rules stand in order, none of them twice. -/
  ordered : config.enabledRules.Pairwise ComesBefore

theorem ofConfig_eq_error_iff {error : RuleError} :
    ofConfig config = .error error ↔
      ∃ entry, config.IsFirstFailing entry ∧ Rule.configure entry.1 entry.2 = .error error := by
  simp only [← Config.isFirst_iff_isFirstFailing]
  rw [ofConfig, bind_eq_error_iff, mapM_eq_error_iff]
  constructor
  · rintro (stopped | ⟨_, _, same⟩)
    · exact stopped
    · cases same
  · exact .inl

/-- **A linter is made of a configuration just as its settings say.** -/
theorem followsConfig (config : Config) : FollowsConfig config where
  settings := Rule.followsRegistry
  fails := by
    simp only [Fails, ofConfig_eq_error_iff, ← Config.isFirst_iff_isFirstFailing]
    rw [← IsFirst.exists_iff]
    constructor
    · rintro ⟨_, entry, first, _⟩
      exact ⟨entry, first⟩
    · rintro ⟨entry, first⟩
      obtain ⟨error, fails⟩ := first.holds_item
      exact ⟨error, entry, first, fails⟩
  error _ := ofConfig_eq_error_iff
  names linter made := by
    obtain ⟨rules, configured, given⟩ := bind_eq_ok_iff.1 made
    cases given
    exact names_of_mapM configured
  ordered := by
    rw [Config.enabledRules, List.pairwise_map]
    exact (NameMap.pairwise_comesBefore config.rules).filter _

end Linter

end ScssLint
