import ScssLint.Proofs.Css.Complete

/-! # Tokens at a seam

Two texts follow each other if they begin in the same way and go on with what tokens in front end
at (`Css.Follows`). The tokens of a text that is settled in front of the second one are found in
front of it if they are found in front of the first (`Css.lexemesFrom_follows`).
-/

namespace ScssLint

namespace Css

variable {offset : Nat} {text rest other : Text} {tokens : List Lexeme}

/-- Whether tokens that end in front of `rest` end in front of the second text, too: it is the same
text, or it differs from the first one only behind a place at which both end tokens. -/
inductive Follows : Text → Text → Prop
  | refl (rest : Text) : Follows rest rest
  | meets {same rest other : Text} : Meets rest other → same.getLast? ≠ some '\\' →
      (SpacesMeet rest other ∨ endsInEscape same = false) → Follows (same ++ rest) (same ++ other)

/-- Whether a text does not go on into `next`: it does not end in a backslash, in an escape with
which `next` would go on, or in a slash with which `next` would start a comment. -/
structure IsSettled (text next : Text) : Prop where
  noEscape : text.getLast? ≠ some '\\'
  calm : endsInEscape text = true → ∀ c ∈ next.head?, isSpace c = false ∧ isHexDigit c = false
  noComment : text.getLast? = some '/' → next.head? ≠ some '*'

theorem Follows.of_meets (meets : Meets rest other) : Follows rest other :=
  @Follows.meets [] rest other meets (Option.some_ne_none _).symm (.inr rfl)

theorem getLast?_append_ne {c : Char} {front : Text} (first : front.getLast? ≠ some c)
    (second : text.getLast? ≠ some c) : (front ++ text).getLast? ≠ some c := by
  rw [List.getLast?_append]
  cases last : text.getLast? with
  | none => exact first
  | some d =>
      rw [last] at second
      exact second

/-- An escape at the end of a text starts in its second part, or goes on into it. -/
theorem endsInEscape_append {front : Text} (escape : endsInEscape (front ++ text) = true) :
    endsInEscape text = true ∨ endsInEscape front = true ∧ ∀ c ∈ text.head?, isHexDigit c = true := by
  induction front with
  | nil => exact .inl escape
  | cons c front ih =>
      rw [List.cons_append, endsInEscape, Bool.or_eq_true] at escape
      rcases escape with here | later
      · simp only [Bool.and_eq_true, List.all_append, decide_eq_true_eq] at here
        obtain ⟨⟨isEscape, short⟩, digits, digits'⟩ := here
        rw [List.length_append] at short
        refine .inr ⟨?_, fun d first => List.all_eq_true.1 digits' d (List.mem_of_mem_head? first)⟩
        rw [endsInEscape, isEscape, digits, decide_eq_true (Nat.le_trans (Nat.le_add_right _ _) short)]
        rfl
      · rcases ih later with inText | ⟨ends, digits⟩
        · exact .inl inText
        · refine .inr ⟨?_, digits⟩
          rw [endsInEscape, ends, Bool.or_true]

theorem endsInEscape_of_append {front : Text} (calm : endsInEscape (front ++ text) = false) :
    endsInEscape text = false := by
  induction front with
  | nil => exact calm
  | cons c front ih => exact ih (endsInEscape_of_cons calm)

/-- No escape goes on behind a settled text and what follows it in the same way. -/
theorem IsSettled.calm_append {same : Text} (settled : IsSettled text (same ++ other))
    (calm : SpacesMeet rest other ∨ endsInEscape same = false) :
    SpacesMeet rest other ∨ endsInEscape (text ++ same) = false := by
  cases ends : endsInEscape (text ++ same) with
  | false => exact .inr rfl
  | true =>
      rcases endsInEscape_append ends with inSame | ⟨inText, digits⟩
      · exact .inl (calm.resolve_right (by rw [inSame]; exact Bool.noConfusion))
      · have free := settled.calm inText
        cases same with
        | nil =>
            refine .inl fun c first space => ?_
            rw [(free c first).1] at space
            exact Bool.noConfusion space
        | cons c same =>
            have digit := digits c rfl
            rw [(free c rfl).2] at digit
            exact Bool.noConfusion digit

/-- **A settled text in front of both.** -/
theorem Follows.extend (settled : IsSettled text other) (follows : Follows rest other) :
    Follows (text ++ rest) (text ++ other) := by
  cases follows with
  | refl => exact .refl _
  | meets meets noEscape calm =>
      rw [← List.append_assoc, ← List.append_assoc]
      exact .meets meets (getLast?_append_ne settled.noEscape noEscape) (settled.calm_append calm)

/-- The first token of a text, and what is read behind it. -/
theorem exists_munch {lexeme : Lexeme}
    (cut : lexemesFrom offset (text ++ rest) =
      lexeme :: tokens ++ lexemesFrom (offset + Text.bytes text) rest) :
    ∃ c more behind, text = c :: (more ++ behind) ∧ lexeme = ⟨lexeme.token, offset, c :: more⟩ ∧
      (munch c (more ++ (behind ++ rest))).1 = lexeme.token ∧
      (more ++ (behind ++ rest)).take (munch c (more ++ (behind ++ rest))).2 = more ∧
      lexemesFrom (offset + Text.bytes (c :: more)) (behind ++ rest) =
        tokens ++ lexemesFrom (offset + Text.bytes (c :: more) + Text.bytes behind) rest := by
  have spelled := congrArg spelling cut
  rw [spelling_lexemesFrom, spelling_append, spelling_lexemesFrom] at spelled
  have whole := List.append_cancel_right spelled
  rw [spelling_cons] at whole
  obtain ⟨_, written, _⟩ := @placed_lexemesFrom _ _ [] _ _ cut
  cases own : lexeme.text with
  | nil => exact absurd own written
  | cons c more =>
      rw [own] at whole
      subst whole
      refine ⟨c, more, spelling tokens, rfl, ?_⟩
      rw [List.cons_append, List.cons_append, lexemesFrom_cons, List.append_assoc] at cut
      obtain ⟨first, behind⟩ := List.cons.inj cut
      have taken := congrArg Lexeme.text first
      rw [own] at taken
      have taken := (List.cons.inj taken).2
      refine ⟨?_, congrArg Lexeme.token first, taken, ?_⟩
      · rw [← first, taken]
      · have dropped := List.take_append_drop (munch c (more ++ (spelling tokens ++ rest))).2
          (more ++ (spelling tokens ++ rest))
        rw [taken] at dropped
        rw [taken, List.append_cancel_left dropped] at behind
        rw [behind, Nat.add_assoc, ← Text.bytes_append]
        rfl

section Step

variable {c : Char} {more behind same : Text} {lexeme : Lexeme}

/-- The first token of a text is found in front of another one, too. -/
theorem munch_follows (meets : Meets rest other)
    (noEscape : (c :: (more ++ (behind ++ same))).getLast? ≠ some '\\')
    (calm : SpacesMeet rest other ∨ endsInEscape (c :: (more ++ (behind ++ same))) = false)
    (noStar : c = '/' → more ++ (behind ++ same) = [] → other.head? ≠ some '*')
    (token : (munch c (more ++ (behind ++ (same ++ rest)))).1 = lexeme.token)
    (taken : (more ++ (behind ++ (same ++ rest))).take
      (munch c (more ++ (behind ++ (same ++ rest)))).2 = more)
    (spelled : lexeme.text = c :: more)
    (dark : lexeme.token = .whitespace ∨ (∃ named, lexeme.token = .function named) →
      ∃ d ∈ behind, isSpace d = false)
    (done : lexeme.isFinished = true ∨
      behind ++ (same ++ rest) ≠ [] ∧ lexeme.token ≠ .badString) :
    munch c (more ++ (behind ++ (same ++ other))) = (lexeme.token, more.length) := by
  have length := congrArg List.length taken
  rw [List.length_take, List.length_append] at length
  have written (some : behind ++ (same ++ rest) ≠ []) :
      munch c (more ++ (behind ++ (same ++ rest))) = (lexeme.token, more.length) := by
    have pos := List.length_pos_iff.2 some
    exact Prod.ext token (by dsimp only; omega)
  by_cases ends : lexeme.token.endsItself = true
  · by_cases function : ∃ named, lexeme.token = .function named
    · obtain ⟨d, member, isDark⟩ := dark (.inr function)
      obtain ⟨named, function⟩ := function
      have cut := written (List.append_ne_nil_of_left_ne_nil (List.ne_nil_of_mem member) _)
      rw [function, ← List.append_assoc] at cut
      rw [function, ← List.append_assoc]
      refine munch_function_inside _ cut (by rw [List.length_append]; omega) (.inr ⟨d, ?_, isDark⟩)
      rwa [List.drop_left]
    · have noFunction (named : Text) : lexeme.token ≠ .function named :=
        fun same => function ⟨named, same⟩
      rcases done with finished | ⟨some, noBad⟩
      · exact munch_of_isFinished _ spelled ends noFunction finished
      · exact munch_closed _ some (fun bad => absurd bad noBad) (written some) ends noFunction
  · have plain : (munch c (more ++ (behind ++ (same ++ rest)))).1.endsItself = false := by
      rw [token]
      exact Bool.eq_false_iff.2 ends
    have within := (endsFreely_munch plain).within
    rw [List.length_append] at within
    have cut : munch c (more ++ (behind ++ (same ++ rest))) = (lexeme.token, more.length) :=
      Prod.ext token (by dsimp only; omega)
    rw [← List.append_assoc behind, ← List.append_assoc more] at cut plain
    rw [← List.append_assoc behind, ← List.append_assoc more, ← cut]
    refine munch_meets meets ⟨.inl ?_, calm⟩ noStar (fun space blank => ?_) ⟨?_, plain⟩
    · exact dangles_of_getLast? (List.cons_ne_nil _ _) noEscape
    · have white : lexeme.token = .whitespace := by
        have first := congrArg Prod.fst cut
        rw [munch, if_pos space] at first
        exact first.symm
      obtain ⟨d, member, isDark⟩ := dark (.inl white)
      rw [blank d (List.mem_append_right _ (List.mem_append_left _ member))] at isDark
      exact Bool.noConfusion isDark
    · rw [cut, List.length_append]
      exact Nat.le_add_right _ _

end Step

/-- A token that is neither white space nor the start of a function. -/
def Lexeme.isDark (lexeme : Lexeme) : Prop :=
  lexeme.token ≠ .whitespace ∧ ∀ named, lexeme.token ≠ .function named

/-- Not only white space stands up to the end of a token that is none. -/
theorem exists_dark
    (cut : lexemesFrom offset (text ++ rest) = tokens ++ lexemesFrom (offset + Text.bytes text) rest)
    (written : tokens ≠ []) (dark : ∀ last ∈ tokens.getLast?, last.isDark) :
    ∃ d ∈ text, isSpace d = false := by
  induction tokens generalizing offset text with
  | nil => exact absurd rfl written
  | cons lexeme tokens ih =>
      obtain ⟨c, more, behind, rfl, _, token, _, cut⟩ := exists_munch cut
      cases tokens with
      | nil =>
          refine ⟨c, List.mem_cons_self, Bool.eq_false_iff.2 fun space => (dark lexeme rfl).1 ?_⟩
          rw [munch, if_pos space] at token
          exact token.symm
      | cons next tokens =>
          obtain ⟨d, member, isDark⟩ := ih cut (List.cons_ne_nil _ _) dark
          exact ⟨d, List.mem_cons_of_mem _ (List.mem_append_right _ member), isDark⟩

theorem lexemesFrom_meets {same : Text} (meets : Meets rest other)
    (noEscape : (text ++ same).getLast? ≠ some '\\')
    (calm : SpacesMeet rest other ∨ endsInEscape (text ++ same) = false)
    (noStar : text.getLast? = some '/' → same = [] → other.head? ≠ some '*')
    (cut : lexemesFrom offset (text ++ (same ++ rest)) =
      tokens ++ lexemesFrom (offset + Text.bytes text) (same ++ rest))
    (dark : ∀ last ∈ tokens.getLast?, last.isDark)
    (done : ∀ lexeme ∈ tokens, lexeme.isFinished = true ∨
      same ++ rest ≠ [] ∧ lexeme.token ≠ .badString) :
    lexemesFrom offset (text ++ (same ++ other)) =
      tokens ++ lexemesFrom (offset + Text.bytes text) (same ++ other) := by
  induction tokens generalizing offset text with
  | nil =>
      have spelled := congrArg spelling cut
      rw [spelling_lexemesFrom, spelling_append, spelling_lexemesFrom] at spelled
      obtain rfl : text = [] := List.append_cancel_right spelled
      rfl
  | cons lexeme tokens ih =>
      obtain ⟨here, later⟩ := List.forall_mem_cons.1 done
      obtain ⟨c, more, behind, rfl, own, token, taken, cut⟩ := exists_munch cut
      rw [List.cons_append, List.append_assoc] at noEscape calm
      have darkBehind : lexeme.token = .whitespace ∨ (∃ named, lexeme.token = .function named) →
          ∃ d ∈ behind, isSpace d = false := by
        intro open?
        cases tokens with
        | nil =>
            obtain ⟨noSpace, noFunction⟩ := dark lexeme rfl
            rcases open? with white | ⟨named, function⟩
            · exact absurd white noSpace
            · exact absurd function (noFunction named)
        | cons next tokens => exact exists_dark cut (List.cons_ne_nil _ _) dark
      have first : munch c (more ++ (behind ++ (same ++ other))) = (lexeme.token, more.length) := by
        refine munch_follows meets noEscape calm (fun slash nothing => ?_) token taken
          (congrArg Lexeme.text own) darkBehind
          (here.imp_right fun done => ⟨List.append_ne_nil_of_right_ne_nil _ done.1, done.2⟩)
        obtain ⟨noMore, nothing⟩ := List.append_eq_nil_iff.1 nothing
        obtain ⟨noBehind, noSame⟩ := List.append_eq_nil_iff.1 nothing
        refine noStar ?_ noSame
        rw [noMore, noBehind, slash]
        rfl
      have escape : (behind ++ same).getLast? ≠ some '\\' := by
        have ends := @getLast?_drop (c :: (more ++ (behind ++ same))) noEscape (more.length + 1)
        rwa [List.drop_succ_cons, List.drop_left] at ends
      have calmBehind : SpacesMeet rest other ∨ endsInEscape (behind ++ same) = false := by
        refine calm.imp_right fun free => ?_
        rw [← List.cons_append] at free
        exact endsInEscape_of_append free
      have starBehind : behind.getLast? = some '/' → same = [] → other.head? ≠ some '*' := by
        intro slash
        refine noStar ?_
        rw [← List.cons_append, List.getLast?_append, slash]
        rfl
      have darkLast : ∀ last ∈ tokens.getLast?, last.isDark := by
        intro last isLast
        refine dark last ?_
        rw [List.getLast?_cons, Option.mem_def.1 isLast]
        rfl
      have cut' := ih escape calmBehind starBehind cut darkLast later
      rw [List.cons_append, List.append_assoc, lexemesFrom_cons, first]
      dsimp only
      rw [List.take_left, List.drop_left, cut', ← own, Nat.add_assoc, ← Text.bytes_append]
      rfl

/-- **The tokens of a settled text** are found in front of a text that follows the one in front of
which they stand. -/
theorem lexemesFrom_follows (settled : IsSettled text other) (follows : Follows rest other)
    (cut : lexemesFrom offset (text ++ rest) =
      tokens ++ lexemesFrom (offset + Text.bytes text) rest)
    (dark : ∀ last ∈ tokens.getLast?, last.isDark)
    (done : ∀ lexeme ∈ tokens, lexeme.isFinished = true ∨ rest ≠ [] ∧ lexeme.token ≠ .badString) :
    lexemesFrom offset (text ++ other) =
      tokens ++ lexemesFrom (offset + Text.bytes text) other := by
  cases follows with
  | refl => exact cut
  | meets meets noEscape calm =>
      refine lexemesFrom_meets meets (getLast?_append_ne settled.noEscape noEscape)
        (settled.calm_append calm) (fun slash nothing => ?_) cut dark done
      have noStar := settled.noComment slash
      rwa [nothing] at noStar

end Css

end ScssLint
