import ScssLint.Proofs.Css.Locality
import ScssLint.Proofs.Css.Mapping
import ScssLint.Proofs.Css.Parts

/-! # What is read in front of a space

A space behind a text ends its last token or belongs to it, and it changes no other token, as long
as no string, `url(` argument or comment is left open (`Css.keptBySpace_munch`). So the tokens of
such a text are known in front of a space and a bracket, wherever the text stands
(`Css.exists_lexemesFrom_space`).
-/

namespace ScssLint

namespace Css

variable {text more : Text} {c d : Char}

/-- Whether `d` ends white space and names, and no function starts with it. -/
def endsWord (d : Char) : Bool :=
  !isSpace d && !isNameChar d && d != '\\' && d != '('

theorem not_isSpace_of_endsWord (ends : endsWord d = true) : isSpace d = false := by
  simp only [endsWord, Bool.and_eq_true, Bool.not_eq_true'] at ends
  exact ends.1.1.1

theorem stopsName_of_endsWord (ends : endsWord d = true) (more : Text) :
    stopsName (d :: more) = true := by
  simp only [endsWord, Bool.and_eq_true] at ends
  simp only [stopsName, Bool.and_eq_true]
  exact ⟨⟨ends.1.1.2, ends.1.2⟩, ends.2⟩

/-- Whether a reader that takes some of `length` characters takes what `taken'` tells when a space
follows: only a reader that reaches the end may take the space, too. -/
structure Widens {α : Type} (length : Nat) (taken taken' : α × Nat) : Prop where
  within : taken.2 ≤ length
  wider : taken' = taken ∨ taken.2 = length ∧ taken'.2 = length + 1

theorem Widens.same {α : Type} {length : Nat} {taken : α × Nat} (within : taken.2 ≤ length) :
    Widens length taken taken :=
  ⟨within, .inl rfl⟩

/-! Some readers do not see the space. -/

theorem head?_space (sign : Char) (other : sign ≠ ' ') (text more : Text) :
    ((text ++ ' ' :: more).head? = some sign) = (text.head? = some sign) := by
  cases text with
  | nil => simp [Ne.symm other]
  | cons c text => rfl

theorem newlineAhead_space (text more : Text) :
    newlineAhead (text ++ ' ' :: more) = newlineAhead text := by
  cases text <;> rfl

theorem startsIdent_space (text more : Text) :
    startsIdent (text ++ ' ' :: more) = startsIdent text := by
  cases text with
  | nil => rfl
  | cons c text =>
      cases text with
      | nil =>
          simp only [List.cons_append, List.nil_append, startsIdent]
          split <;> rfl
      | cons d text => rfl

theorem digits_space (text more : Text) : digits (text ++ ' ' :: more) = digits text :=
  digits_append text rfl

theorem startsNumber_space (text more : Text) :
    startsNumber (text ++ ' ' :: more) = startsNumber text :=
  startsNumber_append text rfl

theorem startsWith_space (start : Text) (noSpace : ' ' ∉ start) (text more : Text) :
    Text.startsWith start (text ++ ' ' :: more) = Text.startsWith start text := by
  induction start generalizing text with
  | nil => rfl
  | cons c start ih =>
      obtain ⟨other, noSpace⟩ := not_or.1 (mt List.mem_cons.2 noSpace)
      cases text with
      | nil => simp [Text.startsWith, List.isPrefixOf, Ne.symm other]
      | cons d text => exact congrArg (c == d && ·) (ih noSpace text)

theorem spaceLength_space (c : Char) (text more : Text) :
    spaceLength (c :: (text ++ ' ' :: more)) = spaceLength (c :: text) := by
  simp only [spaceLength, head?_space '\n' (by decide)]

theorem spaceLength_le (text : Text) : spaceLength text ≤ text.length := by
  cases text with
  | nil => exact Nat.le_refl 0
  | cons c text =>
      rw [List.length_cons, spaceLength]
      split
      · rename_i breaks
        obtain ⟨tail, rfl⟩ := List.head?_eq_some_iff.1 breaks.2
        simp
      · split <;> omega

/-! Others may take it along. -/

/-- The digits of an escape. -/
def escapeDigits (text : Text) : Text :=
  (text.take 6).takeWhile isHexDigit

/-- The character with a number that is written in hexadecimal digits. -/
def charOfDigits (digits : Text) : Char :=
  charOfCode (digits.foldl (fun value digit => 16 * value + hexValue digit) 0)

theorem escape_of_isHexDigit (hex : isHexDigit c = true) (text : Text) :
    escape (c :: text) =
      (charOfDigits (escapeDigits (c :: text)), (escapeDigits (c :: text)).length +
        spaceLength ((c :: text).drop (escapeDigits (c :: text)).length)) := by
  simp only [escape, hex, ↓reduceIte]
  rfl

theorem length_escapeDigits_le (text : Text) : (escapeDigits text).length ≤ text.length :=
  Nat.le_trans (length_takeWhile_le _ _) (List.take_prefix 6 _).length_le

theorem escapeDigits_space (text more : Text) :
    escapeDigits (text ++ ' ' :: more) = escapeDigits text := by
  rw [escapeDigits, List.take_append, takeWhile_append, escapeDigits]
  intro d first
  generalize 6 - text.length = count at first
  cases count with
  | zero => exact absurd first (Option.not_mem_none _)
  | succ count =>
      obtain rfl := Option.some.inj first
      rfl

theorem takeWhile_append_of_stops {test : Char → Bool} (stops : ∃ c ∈ text, test c = false)
    (rest : Text) : (text ++ rest).takeWhile test = text.takeWhile test := by
  induction text with
  | nil => simp at stops
  | cons c text ih =>
      rw [List.cons_append, List.takeWhile_cons, List.takeWhile_cons]
      by_cases goesOn : test c = true
      · obtain ⟨d, member, fails⟩ := stops
        rcases List.mem_cons.1 member with rfl | later
        · rw [goesOn] at fails
          exact Bool.noConfusion fails
        · rw [ih ⟨d, later, fails⟩]
      · rw [if_neg goesOn, if_neg goesOn]

theorem exists_spaces_space (text : Text) :
    ∃ found : Munched, (∀ d more, isSpace d = false →
        (.whitespace, ((text ++ ' ' :: d :: more).takeWhile isSpace).length) = found) ∧
      Widens text.length (.whitespace, (text.takeWhile isSpace).length) found := by
  by_cases stops : ∃ c ∈ text, isSpace c = false
  · refine ⟨_, fun d more _ => ?_, .same (length_takeWhile_le _ _)⟩
    rw [takeWhile_append_of_stops stops]
  · have blank : ∀ c ∈ text, isSpace c = true := by simpa using stops
    have whole := @List.takeWhile_append_of_pos _ isSpace text [] blank
    rw [List.takeWhile_nil, List.append_nil] at whole
    rw [whole]
    refine ⟨(.whitespace, text.length + 1), fun d more dark => ?_, Nat.le_refl _, .inr ⟨rfl, rfl⟩⟩
    rw [List.takeWhile_append_of_pos blank, List.takeWhile_cons_of_pos rfl,
      List.takeWhile_cons_of_neg (by simp [dark]), List.length_append, List.length_singleton]

theorem exists_escape_space (text : Text) :
    ∃ found, (∀ more, escape (text ++ ' ' :: more) = found) ∧
      Widens text.length (escape text) found := by
  cases text with
  | nil => exact ⟨(' ', 1), fun _ => rfl, Nat.le_refl _, .inr ⟨rfl, rfl⟩⟩
  | cons c text =>
      by_cases hex : isHexDigit c = true
      · have inside := length_escapeDigits_le (c :: text)
        have reads (more : Text) : escape (c :: text ++ ' ' :: more) =
            (charOfDigits (escapeDigits (c :: text)), (escapeDigits (c :: text)).length +
              spaceLength ((c :: text).drop (escapeDigits (c :: text)).length ++ ' ' :: more)) := by
          rw [List.cons_append, escape_of_isHexDigit hex, ← List.cons_append, escapeDigits_space,
            List.drop_append_of_le_length inside]
        have within := spaceLength_le ((c :: text).drop (escapeDigits (c :: text)).length)
        rw [List.length_drop] at within
        rw [escape_of_isHexDigit hex]
        cases behind : (c :: text).drop (escapeDigits (c :: text)).length with
        | nil =>
            -- The digits reach the end, and the space behind them belongs to the escape.
            have full := congrArg List.length behind
            rw [List.length_drop, List.length_nil] at full
            rw [behind] at reads
            refine ⟨(_, (escapeDigits (c :: text)).length + 1), reads, inside, .inr ⟨?_, ?_⟩⟩
            · exact Nat.le_antisymm inside (Nat.le_of_sub_eq_zero full)
            · exact congrArg (· + 1) (Nat.le_antisymm inside (Nat.le_of_sub_eq_zero full))
        | cons d tail =>
            rw [behind] at reads within
            refine ⟨_, fun more => ?_, .same ?_⟩
            · rw [reads, List.cons_append, spaceLength_space]
            · dsimp only
              omega
      · refine ⟨escape (c :: text), fun more => ?_, .same ?_⟩
        · simp only [List.cons_append, escape, hex]
          rfl
        · simp only [escape, hex, Bool.false_eq_true, ↓reduceIte, List.length_cons]
          split <;> omega

theorem exists_nameUnit?_space (c : Char) (text : Text) :
    (nameUnit? c text = none ∧ ∀ more, nameUnit? c (text ++ ' ' :: more) = none) ∨
      ∃ unit found, nameUnit? c text = some unit ∧
        (∀ more, nameUnit? c (text ++ ' ' :: more) = some found) ∧
        Widens text.length unit found := by
  unfold nameUnit?
  simp only [newlineAhead_space]
  split
  · split
    · exact .inl ⟨rfl, fun _ => rfl⟩
    · obtain ⟨found, reads, widens⟩ := exists_escape_space text
      exact .inr ⟨_, found, rfl, fun more => congrArg some (reads more), widens⟩
  · split
    · exact .inr ⟨_, _, rfl, fun _ => rfl, .same (Nat.zero_le _)⟩
    · split
      · exact .inr ⟨_, _, rfl, fun _ => rfl, .same (Nat.zero_le _)⟩
      · exact .inl ⟨rfl, fun _ => rfl⟩

theorem name_of_endsWord (ends : endsWord d = true) (more : Text) : name (d :: more) = ([], 0) :=
  @name_append [] (d :: more) (List.forall_mem_nil _) (stopsName_of_endsWord ends more)

/-- **A name goes on through a space only if the space belongs to its last escape.** -/
theorem exists_name_space (text : Text) :
    ∃ found, (∀ d more, endsWord d = true → name (text ++ ' ' :: d :: more) = found) ∧
      Widens text.length (name text) found := by
  induction text using induct_drop with
  | nil =>
      have noName (more : Text) : name (' ' :: more) = ([], 0) :=
        @name_append [] (' ' :: more) (List.forall_mem_nil _) rfl
      rw [name]
      exact ⟨([], 0), fun d more _ => noName (d :: more), .same (Nat.zero_le _)⟩
  | cons c text ih =>
      rcases exists_nameUnit?_space c text with
        ⟨none, none'⟩ | ⟨⟨decoded, taken⟩, ⟨decoded', taken'⟩, one, one', within, wider⟩
      · rw [name, none]
        refine ⟨([], 0), fun d more _ => ?_, .same (Nat.zero_le _)⟩
        rw [List.cons_append, name, none']
      · rw [name, one]
        dsimp only at within wider ⊢
        rcases wider with same | ⟨full, wider⟩
        · obtain ⟨rfl, rfl⟩ := Prod.mk.inj same
          obtain ⟨tail, reads, within', wider⟩ := ih taken'
          rw [List.length_drop] at within' wider
          refine ⟨(decoded' :: tail.1, 1 + taken' + tail.2), fun d more ends => ?_, ?_, ?_⟩
          · rw [List.cons_append, name, one' (d :: more)]
            simp only [List.drop_append_of_le_length within, reads d more ends]
          · simp only [List.length_cons]
            omega
          · rcases wider with same | wider
            · exact .inl (by rw [same])
            · refine .inr ?_
              simp only [List.length_cons]
              omega
        · refine ⟨([decoded'], 1 + (text.length + 1)), fun d more ends => ?_, ?_⟩
          · have behind : (text ++ ' ' :: d :: more).drop (text.length + 1) = d :: more := by
              rw [List.append_cons]
              exact List.drop_left' (by simp)
            rw [List.cons_append, name, one' (d :: more)]
            simp only [wider, behind, name_of_endsWord ends, Nat.add_zero]
          · rw [full, List.drop_length, name, List.length_cons]
            exact ⟨by dsimp only; omega, .inr ⟨by dsimp only; omega, by dsimp only; omega⟩⟩

/-! The tokens themselves. -/

/-- A token without its name. -/
def Token.kind : Token → Token
  | ident _ => ident []
  | function _ => function []
  | atKeyword _ => atKeyword []
  | token => token

/-- Whether a simple token is read in front of a space as without it, up to the space and its
name. -/
def KeptBySpace (length : Nat) (munched : Munched) (reads : Char → Text → Munched) : Prop :=
  munched.1.isSimple = true → ∃ found, (∀ d more, endsWord d = true → reads d more = found) ∧
    found.1.kind = munched.1.kind ∧ Widens length munched found

namespace KeptBySpace

variable {length : Nat} {first second : Munched} {first' second' : Char → Text → Munched}

theorem of_not_simple (other : first.1.isSimple = false) : KeptBySpace length first first' := by
  intro simple
  rw [other] at simple
  exact Bool.noConfusion simple

theorem same (within : first.2 ≤ length) : KeptBySpace length first fun _ _ => first :=
  fun _ => ⟨first, fun _ _ _ => rfl, rfl, .same within⟩

theorem ite {p : Prop} [Decidable p] (chosen : p → KeptBySpace length first first')
    (other : ¬ p → KeptBySpace length second second') :
    KeptBySpace length (if p then first else second)
      fun d more => if p then first' d more else second' d more := by
  by_cases holds : p
  · simpa only [if_pos holds] using chosen holds
  · simpa only [if_neg holds] using other holds

end KeptBySpace

theorem isSimple_munchNumber (text : Text) : (munchNumber text).1.isSimple = false := by
  simp only [munchNumber]
  repeat' split
  all_goals rfl

/-- An identifier is read in front of a space. -/
theorem keptBySpace_munchIdent (c : Char) (text : Text) :
    KeptBySpace text.length (munchIdent (c :: text))
      fun d more => munchIdent (c :: (text ++ ' ' :: d :: more)) := by
  by_cases call : ((c :: text).drop (name (c :: text)).2).head? = some '('
  · obtain ⟨argument, behind⟩ := List.head?_eq_some_iff.1 call
    refine .of_not_simple ?_
    rw [munchIdent_of_call behind]
    repeat' split
    all_goals first | rfl | skip
    rcases urlLength_token (argument.drop (argument.takeWhile isSpace).length) with same | same <;>
      rw [same] <;> rfl
  · intro _
    obtain ⟨found, reads, within, wider⟩ := exists_name_space (c :: text)
    rw [munchIdent_of_plain call]
    refine ⟨(.ident found.1, found.2 - 1), fun d more ends => ?_, rfl, ?_, ?_⟩
    · have read := reads d more ends
      rw [List.cons_append] at read
      have plain : ((c :: (text ++ ' ' :: d :: more)).drop found.2).head? ≠ some '(' := by
        rcases wider with rfl | ⟨_, full⟩
        · rw [← List.cons_append, List.drop_append_of_le_length within, ne_eq,
            head?_space '(' (by decide)]
          exact call
        · have shape : c :: (text ++ ' ' :: d :: more) = (c :: text ++ [' ']) ++ d :: more := by
            simp
          rw [shape, List.drop_left' (by simp [full])]
          simp only [endsWord, Bool.and_eq_true, bne_iff_ne] at ends
          exact fun same => ends.2 (Option.some.inj same)
      rw [← read] at plain
      dsimp only
      rw [munchIdent_of_plain plain, read]
    · simp only [List.length_cons] at within ⊢
      omega
    · simp only [List.length_cons] at wider ⊢
      rcases wider with rfl | ⟨full, wider⟩
      · exact .inl rfl
      · exact .inr ⟨by omega, by omega⟩

/-- **A simple token is read in front of a space.** -/
theorem keptBySpace_munch (c : Char) (text : Text) :
    KeptBySpace text.length (munch c text) fun d more => munch c (text ++ ' ' :: d :: more) := by
  have here (d : Char) (more : Text) :
      startsIdent (c :: (text ++ ' ' :: d :: more)) = startsIdent (c :: text) :=
    startsIdent_space (c :: text) (d :: more)
  dsimp only [munch]
  simp only [head?_space '=' (by decide), head?_space '*' (by decide),
    startsIdent_space, here, startsNumber_space, digits_space,
    startsWith_space ['-', '>'] (by decide),
    startsWith_space ['!', '-', '-'] (by decide)]
  -- One branch of the lexer after the other, in its order.
  refine .ite (fun _ _ => ?space) fun _ => ?_
  case space =>
    obtain ⟨found, reads, widens⟩ := exists_spaces_space text
    refine ⟨found, fun d more ends => reads d more (not_isSpace_of_endsWord ends), ?_, widens⟩
    rw [← reads 'a' [] rfl]
  refine .ite (fun _ => .of_not_simple (by split <;> rfl)) fun _ => ?_
  refine .ite (fun isHash => .of_not_simple ?hash) fun _ => ?_
  case hash =>
    repeat' split
    all_goals first | rfl | (rw [isHash]; rfl)
  iterate 8 refine .ite (fun _ => .of_not_simple rfl) fun _ => ?_
  refine .ite (fun _ => .same (Nat.zero_le _)) fun _ => ?_
  refine .ite (fun _ => .of_not_simple rfl) fun _ => ?_
  refine .ite (fun _ => .of_not_simple (isSimple_munchNumber _)) fun _ => ?_
  iterate 3 refine .ite (fun _ => .of_not_simple rfl) fun _ => ?_
  refine .ite (fun _ _ => ?atKeyword) fun _ => ?_
  case atKeyword =>
    obtain ⟨found, reads, within, wider⟩ := exists_name_space text
    refine ⟨(.atKeyword found.1, found.2), fun d more ends => ?_, rfl, within, ?_⟩
    · rw [reads d more ends]
    · rcases wider with rfl | wider
      · exact .inl rfl
      · exact .inr wider
  exact .ite (fun _ => keptBySpace_munchIdent c text) fun _ => .same (Nat.zero_le _)

/-- What tokens are, as far as their names do not matter. -/
def kinds (tokens : List Lexeme) : List Token :=
  tokens.map (·.token.kind)

theorem kinds_shift (distance : Nat) (tokens : List Lexeme) :
    kinds (tokens.map (Lexeme.shift distance)) = kinds tokens := by
  rw [kinds, List.map_map]
  rfl

/-- **Simple tokens are read in front of a space**, which belongs to the last of them or is a token
of its own. -/
theorem exists_lexemesFrom_space {text : Text}
    (simple : ∀ lexeme ∈ lexemes text, lexeme.token.isSimple = true) :
    ∃ tokens spaces, kinds tokens = kinds (lexemes text) ++ spaces ∧
      (∀ token ∈ spaces, token = .whitespace) ∧
      ∀ offset d more, endsWord d = true → lexemesFrom offset (text ++ ' ' :: d :: more) =
        tokens.map (Lexeme.shift offset) ++
          lexemesFrom (offset + Text.bytes text + 1) (d :: more) := by
  induction text using induct_drop with
  | nil =>
      refine ⟨[⟨.whitespace, 0, [' ']⟩], [.whitespace], ?_, List.forall_mem_singleton.2 rfl,
        fun offset d more ends => ?_⟩
      · rw [lexemes_nil]
        rfl
      · have stops : ∀ c ∈ (d :: more).head?, isSpace c = false := fun c first =>
          Option.some.inj first ▸ not_isSpace_of_endsWord ends
        exact lexes_space (List.forall_mem_singleton.2 rfl) stops offset
  | cons c text ih =>
      have cut := lexemes_cons c text
      rw [cut, List.forall_mem_cons] at simple
      obtain ⟨found, reads, kind, within, wider⟩ := keptBySpace_munch c text simple.1
      have read (d : Char) (more : Text) (ends : endsWord d = true) :
          munch c (text ++ ' ' :: d :: more) = found := reads d more ends
      rcases wider with rfl | ⟨full, wider⟩
      · -- The token ends in front of the space.
        obtain ⟨tokens, spaces, same, blank, behind⟩ :=
          ih (munch c text).2
            (fun lexeme member => (List.forall_mem_map.1 simple.2) lexeme member)
        have bytes := bytes_cons_take_drop c text (munch c text).2
        refine ⟨⟨(munch c text).1, 0, c :: text.take (munch c text).2⟩ ::
          tokens.map (Lexeme.shift (Text.bytes (c :: text.take (munch c text).2))), spaces, ?_,
          blank,
          fun offset d more ends => ?_⟩
        · have tail := kinds_shift (Text.bytes (c :: text.take (munch c text).2)) tokens
          have tail' := kinds_shift (Text.bytes (c :: text.take (munch c text).2))
            (lexemes (text.drop (munch c text).2))
          rw [cut]
          simp only [kinds, List.map_cons, List.cons_append] at tail tail' same ⊢
          rw [tail, tail', same]
        · rw [List.cons_append, lexemesFrom_cons, read d more ends,
            List.take_append_of_le_length within, List.drop_append_of_le_length within,
            behind _ d more ends, List.map_cons, map_shift_shift, bytes, ← Nat.add_assoc]
          rfl
      · -- The space belongs to the token, which is the last one.
        refine ⟨[⟨found.1, 0, c :: (text ++ [' '])⟩], [], ?_, List.forall_mem_nil _,
          fun offset d more ends => ?_⟩
        · rw [cut, full, List.drop_length, lexemes_nil, List.append_nil]
          exact congrArg (fun token => [token]) kind
        · have shape : text ++ ' ' :: d :: more = (text ++ [' ']) ++ d :: more := by simp
          have length : (text ++ [' ']).length = found.2 := by simp [wider]
          rw [List.cons_append, lexemesFrom_cons, read d more ends, shape,
            List.take_left' length, List.drop_left' length]
          simp only [Text.bytes_cons, Text.bytes_append, Text.bytes_nil]
          rfl

end Css

end ScssLint
