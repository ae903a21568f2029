import ScssLint.Proofs.Comment.Blanking

/-! # Blanking in another context

What a scanner blanks depends on what it is in the middle of and on the characters of a name in
front of it, and on nothing else that it has read (`Comment.Scanner.Alike`). So a passage is blanked
in the same way wherever it stands, also in front of more text if it ends with a closing bracket
(`Comment.Scanner.Alike.overwritten_append`).
-/

namespace ScssLint

namespace Comment

/-- What a scanner is in the middle of, without what it knows of a comment. -/
def Mode.kind : Mode → Mode
  | .block .. => .block 0 false []
  | .line .. => .line 0 false []
  | mode => mode

theorem Mode.isLine_kind (mode : Mode) : mode.kind.isLine = mode.isLine := by
  cases mode <;> rfl

theorem Mode.kind_eq_code {mode : Mode} (same : mode.kind = .code) : mode = .code := by
  cases mode <;> first | rfl | exact Mode.noConfusion same

namespace Scanner

/-- Whether two scanners are in the middle of the same, behind the same part of a name. -/
structure Alike (scanner other : Scanner) : Prop where
  mode : other.mode.kind = scanner.mode.kind
  name : nameRun other.before = nameRun scanner.before

theorem endsInUrl_congr {before before' : Text} (same : nameRun before' = nameRun before) :
    endsInUrl before' = endsInUrl before :=
  congrArg (fun run : Text => Text.equalAnyCase run.reverse ['u', 'r', 'l']) same

/-- Text without a slash holds no line comment. -/
theorem overwritten_of_noSlash (scanner : Scanner) (outside : scanner.mode.isLine = false)
    (noSlash : '/' ∉ scanner.rest) : scanner.overwritten = scanner.rest := by
  induction scanner, outside using induct_steps with
  | ended scanner outside ended => rw [overwritten_nil outside ended, ended]
  | step scanner c rest outside ahead stays ih =>
      have behind : '/' ∉ (scanner.after c rest (scanner.react c rest)).rest := fun member =>
        noSlash (ahead ▸ List.mem_cons_of_mem c (List.mem_of_mem_drop member))
      rw [overwritten_step outside ahead stays, ih behind, ahead, List.cons_append]
      simp only [after, List.take_append_drop]
  | line blocks before line rest flag whole ih => exact absurd List.mem_cons_self noSlash
  | lastLine blocks before line flag whole => exact absurd List.mem_cons_self noSlash

namespace Alike

variable {scanner other : Scanner} (alike : Alike scanner other)

include alike

theorem isLine_eq : other.mode.isLine = scanner.mode.isLine := by
  rw [← other.mode.isLine_kind, alike.mode, scanner.mode.isLine_kind]

/-- **Scanners that are alike react alike** to the same character, if the same stands behind it. -/
theorem react (outside : scanner.mode.isLine = false) {c : Char} {rest rest' : Text}
    (head : rest'.head? = rest.head?) (quoted : opensQuoted rest' = opensQuoted rest) :
    (other.react c rest').more = (scanner.react c rest).more ∧
      (other.react c rest').mode.kind = (scanner.react c rest).mode.kind := by
  have escaped := escapeLength_congr head
  have named := endsInUrl_congr alike.name
  have mode := alike.mode
  obtain ⟨blocks, before, around, mode', flag⟩ := scanner
  obtain ⟨blocks', before', around', mode'', flag'⟩ := other
  dsimp only at mode named
  cases mode' with
  | line start inline body => exact absurd outside Bool.noConfusion
  | code =>
      cases mode'' <;> cases mode
      simp only [Scanner.react, head, quoted, escaped, named]
      repeat' split
      all_goals exact ⟨rfl, rfl⟩
  | quoted quote =>
      cases mode'' <;> cases mode
      simp only [Scanner.react, escaped]
      repeat' split
      all_goals exact ⟨rfl, rfl⟩
  | url =>
      cases mode'' <;> cases mode
      simp only [Scanner.react]
      repeat' split
      all_goals exact ⟨rfl, rfl⟩
  | block start inline body =>
      cases mode'' <;> cases mode
      simp only [Scanner.react, head]
      repeat' split
      all_goals exact ⟨rfl, rfl⟩

theorem after {c : Char} {rest rest' : Text}
    (same : (other.react c rest').more = (scanner.react c rest).more ∧
      (other.react c rest').mode.kind = (scanner.react c rest).mode.kind)
    (taken : rest'.take (scanner.react c rest).more = rest.take (scanner.react c rest).more) :
    Alike (scanner.after c rest (scanner.react c rest))
      (other.after c rest' (other.react c rest')) := by
  refine ⟨same.2, ?_⟩
  simp only [Scanner.after, same.1, taken]
  exact nameRun_append _ (nameRun_append [c] alike.name)

end Alike

/-- Whether a scanner that has not come to its end leaves the closing bracket there alone. -/
def KeepsClosing (scanner : Scanner) : Prop :=
  scanner.rest ≠ [] →
    scanner.rest.getLast? = some '\x7D' ∧ scanner.overwritten.getLast? = some '\x7D'

theorem getLast?_of_append {α : Type} {start items : List α} {last : α} (written : items ≠ [])
    (ends : (start ++ items).getLast? = some last) : items.getLast? = some last := by
  rw [List.getLast?_append] at ends
  cases final : items.getLast? with
  | none => exact absurd (List.getLast?_eq_none_iff.1 final) written
  | some item =>
      rw [final] at ends
      exact ends

theorem overwritten_ne_nil {scanner : Scanner} (outside : scanner.mode.isLine = false)
    (written : scanner.rest ≠ []) : scanner.overwritten ≠ [] := by
  intro nothing
  have bytes := scanner.bytes_overwritten outside
  have positive := Text.bytes_pos written
  rw [nothing, Text.bytes_nil] at bytes
  omega

theorem KeepsClosing.behind {scanner later : Scanner} {start start' : Text}
    (keeps : KeepsClosing scanner) (outside : later.mode.isLine = false)
    (ahead : scanner.rest = start ++ later.rest)
    (overwritten : scanner.overwritten = start' ++ later.overwritten) : KeepsClosing later := by
  intro written
  obtain ⟨last, last'⟩ := keeps (ahead ▸ List.append_ne_nil_of_right_ne_nil _ written)
  rw [ahead] at last
  rw [overwritten] at last'
  exact ⟨getLast?_of_append written last,
    getLast?_of_append (overwritten_ne_nil outside written) last'⟩

/-- The closing bracket at the end is seen ahead, and nothing behind it is. -/
theorem ahead_append {text closers : Text}
    (ends : closers = [] ∨ text.getLast? = some '\x7D') :
    (text ++ closers).head? = text.head? ∧ opensQuoted (text ++ closers) = opensQuoted text := by
  rcases ends with rfl | last
  · rw [List.append_nil]
    exact ⟨rfl, rfl⟩
  · obtain ⟨start, rfl⟩ := List.getLast?_eq_some_iff.1 last
    refine ⟨by cases start <;> rfl, ?_⟩
    induction start with
    | nil => rfl
    | cons c start ih =>
        by_cases space : isSpace c = true
        · have passed := opensQuoted_append (List.forall_mem_singleton.2 space)
          exact (passed _).trans ((ih (by simp)).trans (passed _).symm)
        · rw [Bool.not_eq_true] at space
          exact (opensQuoted_cons space _).trans (opensQuoted_cons space _).symm

/-- A closing bracket is read in the same way whatever follows it. -/
theorem react_closing (scanner : Scanner) (outside : scanner.mode.isLine = false)
    (rest rest' : Text) : scanner.react '\x7D' rest' = scanner.react '\x7D' rest := by
  obtain ⟨blocks, before, around, mode, flag⟩ := scanner
  cases mode with
  | line start inline body => exact absurd outside Bool.noConfusion
  | code | quoted quote | url | block start inline body => rfl

/-- Scanners that are alike react alike in front of more text, too: they see the same behind the
character, or it is the closing bracket at the end. -/
theorem Alike.react_ahead {closers rest : Text} {scanner other : Scanner} {c : Char}
    (alike : Alike scanner other) (outside : scanner.mode.isLine = false)
    (ends : closers = [] ∨ (c :: rest).getLast? = some '\x7D') :
    (other.react c (rest ++ closers)).more = (scanner.react c rest).more ∧
      (other.react c (rest ++ closers)).mode.kind = (scanner.react c rest).mode.kind := by
  by_cases atEnd : rest = [] ∧ closers ≠ []
  · obtain ⟨rfl, more⟩ := atEnd
    obtain rfl : c = '\x7D' := Option.some.inj (ends.resolve_left more)
    rw [react_closing other (alike.isLine_eq.trans outside) []]
    exact alike.react outside rfl rfl
  · have ends' : closers = [] ∨ rest.getLast? = some '\x7D' := by
      by_cases more : closers = []
      · exact .inl more
      · have written : rest ≠ [] := fun empty => atEnd ⟨empty, more⟩
        have whole : ([c] ++ rest).getLast? = some '\x7D' := ends.resolve_left more
        exact .inr (getLast?_of_append written whole)
    obtain ⟨head, quoted⟩ := ahead_append ends'
    exact alike.react outside head quoted

/-- **A passage is blanked in the same way wherever it stands**, also in front of more text without
slashes if the passage ends with a closing bracket. -/
theorem Alike.overwritten_append {closers : Text} (noSlash : '/' ∉ closers) (scanner : Scanner)
    (outside : scanner.mode.isLine = false) :
    ∀ other, Alike scanner other → other.rest = scanner.rest ++ closers →
      (closers = [] ∨ KeepsClosing scanner) →
      other.overwritten = scanner.overwritten ++ closers := by
  induction scanner, outside using induct_steps with
  | ended scanner outside ended =>
      intro other alike ahead _
      have outside' := alike.isLine_eq.trans outside
      rw [ended, List.nil_append] at ahead
      rw [overwritten_nil outside ended, List.nil_append,
        overwritten_of_noSlash other outside' (ahead ▸ noSlash), ahead]
  | step scanner c rest outside ahead stays ih =>
      intro other alike ahead' ends
      have outside' := alike.isLine_eq.trans outside
      rw [ahead, List.cons_append] at ahead'
      have fits := more_le_length scanner c rest
      have taken : (rest ++ closers).take (scanner.react c rest).more =
          rest.take (scanner.react c rest).more := List.take_append_of_le_length fits
      have last : closers = [] ∨ (c :: rest).getLast? = some '\x7D' :=
        ends.imp_right fun keeps => ahead ▸ (keeps (by simp [ahead])).1
      have same := alike.react_ahead outside last
      have alike' := alike.after same taken
      have stays' : (other.react c (rest ++ closers)).mode.isLine = false :=
        alike'.isLine_eq.trans stays
      have step := overwritten_step outside ahead stays
      have whole : scanner.rest = c :: rest.take (scanner.react c rest).more ++
          (scanner.after c rest (scanner.react c rest)).rest := by
        simp only [Scanner.after, ahead, List.cons_append, List.take_append_drop]
      have left : (other.after c (rest ++ closers) (other.react c (rest ++ closers))).rest =
          (scanner.after c rest (scanner.react c rest)).rest ++ closers := by
        simp only [Scanner.after, same.1, List.drop_append_of_le_length fits]
      have behind := ih _ alike' left (ends.imp_right fun keeps => keeps.behind stays whole step)
      rw [overwritten_step outside' ahead' stays', behind, step, same.1, taken, List.append_assoc]
  | line blocks before line rest flag whole ih =>
      intro other alike ahead ends
      obtain ⟨blocks', before', rest', mode, flag'⟩ := other
      obtain rfl : mode = .code := Mode.kind_eq_code alike.mode
      dsimp only [List.cons_append] at ahead
      rw [List.append_assoc, List.cons_append] at ahead
      subst ahead
      have later :
          Alike ⟨blocks, '\n' :: (line.reverse ++ '/' :: '/' :: before), rest, .code, false⟩
            ⟨blocks', '\n' :: (line.reverse ++ '/' :: '/' :: before'), rest ++ closers, .code,
              false⟩ :=
        ⟨rfl, rfl⟩
      have written := @overwritten_line blocks flag before rest line whole
      have keeps := ends.imp_right fun keeps => KeepsClosing.behind keeps rfl
        (show _ = ('/' :: '/' :: (line ++ ['\n'])) ++ rest by simp)
        (written.trans (List.append_assoc _ _ _).symm)
      rw [overwritten_line whole, ih _ later rfl keeps, written]
      simp only [List.append_assoc]
  | lastLine blocks before line flag whole =>
      intro other alike ahead ends
      obtain ⟨blocks', before', rest', mode, flag'⟩ := other
      obtain rfl : mode = .code := Mode.kind_eq_code alike.mode
      dsimp only at ahead
      subst ahead
      rcases ends with rfl | keeps
      · rw [List.append_nil, List.append_nil, overwritten_lastLine whole,
          overwritten_lastLine whole]
      · have last := (keeps (List.cons_ne_nil _ _)).2
        rw [overwritten_lastLine whole] at last
        have space := (List.mem_replicate.1 (List.mem_of_getLast? last)).2
        exact absurd space (by decide)

end Scanner

/-- A text is blanked by a scanner that looks for line comments only. -/
theorem overwritten_of_noBlocks (text : Text) :
    (⟨false, [], text, .code, false⟩ : Scanner).overwritten = blankLineComments text := by
  have same := Scanner.Alike.overwritten_append List.not_mem_nil (Scanner.ofText true text) rfl
    ⟨false, [], text, .code, false⟩ ⟨rfl, rfl⟩ (List.append_nil text).symm (.inl rfl)
  rw [same, blankLineComments_eq_overwritten, List.append_nil]

end Comment

end ScssLint
