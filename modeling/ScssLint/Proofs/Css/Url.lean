import ScssLint.Proofs.Css.Passes

/-! # What a scanner sees of `url(` arguments

The lexer decodes a name before it compares it to `url`, and a backslash hides a closing parenthesis
from it. The scanner does neither, so a part of an argument may be ordinary text to it
(`Css.exposed`). If such a part shows no comment marker (`Css.firstMarker`), the scanner is back in
step behind the token (`Css.IsCall.passes`); if it shows `//`, the scanner finds a line comment
there (`Css.IsCall.finds`).
-/

namespace ScssLint

namespace Css

open Comment

open Comment.Scanner (isPlain isPlain_of_isSpace)

/-- The second character of the first `//` or `/*` that no backslash hides. -/
def firstMarker : Text → Option Char
  | [] => none
  | [_] => none
  | c :: d :: rest =>
      if c = '\\' then firstMarker rest
      else if c = '/' ∧ (d = '/' ∨ d = '*') then some d
      else firstMarker (d :: rest)

theorem firstMarker_cons {c : Char} (other : c ≠ '\\') (text : Text) :
    firstMarker (c :: text) =
      if c = '/' ∧ (text.head? = some '/' ∨ text.head? = some '*') then text.head?
      else firstMarker text := by
  cases text with
  | nil => simp [firstMarker]
  | cons d rest => simp only [firstMarker, other, ↓reduceIte, List.head?_cons, Option.some.injEq]

/-- What a scanner takes for ordinary text in the argument of `call`, a `url(` token behind
`before`: the argument as a whole, if the letters in front of the parenthesis are not just `url`,
and otherwise what follows the first `)`. -/
def exposed (before call : Text) : Text :=
  let spelled := call.takeWhile (· ≠ '(')
  let argument := (call.dropWhile (· ≠ '(')).drop 1
  if endsInUrl (spelled.reverse ++ before) then
    (argument.dropWhile (· ≠ ')')).drop 1
  else
    argument

/-- The texts that can stand in an unquoted argument: no quote and no parenthesis opens anything in
them, and no escape stands for a line break. -/
inductive IsArgument : Text → Prop
  | nil : IsArgument []
  | plain {c : Char} {rest : Text} : c = '/' ∨ isPlain c = true → IsArgument rest →
      IsArgument (c :: rest)
  | escape {c : Char} {rest : Text} : c ≠ '\n' → IsArgument rest → IsArgument ('\\' :: c :: rest)
  | backslash : IsArgument ['\\']

namespace IsArgument

variable {text rest before : Text}

theorem of_plain {start : Text} (plain : ∀ c ∈ start, isPlain c = true) (behind : IsArgument text) :
    IsArgument (start ++ text) := by
  induction start with
  | nil => exact behind
  | cons c start ih =>
      exact .plain (.inr (plain c List.mem_cons_self))
        (ih fun d member => plain d (List.mem_cons_of_mem c member))

/-- Behind a closing parenthesis the argument goes on as before. -/
theorem behindClose (argument : IsArgument text) :
    IsArgument ((text.dropWhile (· ≠ ')')).drop 1) := by
  induction argument with
  | nil => exact .nil
  | @plain c rest _ behind ih =>
      by_cases closes : c = ')'
      · rw [List.dropWhile_cons_of_neg (by simp [closes])]
        exact behind
      · rw [List.dropWhile_cons_of_pos (by simp [closes])]
        exact ih
  | @escape c rest _ behind ih =>
      rw [List.dropWhile_cons_of_pos (by simp)]
      by_cases closes : c = ')'
      · rw [List.dropWhile_cons_of_neg (by simp [closes])]
        exact behind
      · rw [List.dropWhile_cons_of_pos (by simp [closes])]
        exact ih
  | backslash => exact .nil

theorem ne_backslash {c : Char} (plain : c = '/' ∨ isPlain c = true) : c ≠ '\\' := by
  rintro rfl
  exact absurd plain (by decide)

theorem passes_first {c d : Char} (plain : c = '/' ∨ isPlain c = true)
    (unmarked : ¬ (c = '/' ∧ ((d :: text).head? = some '/' ∨ (d :: text).head? = some '*')))
    (before : Text) : Passes before [c] (d :: text ++ rest) := by
  rcases plain with rfl | plain
  · simp only [List.head?_cons, true_and, not_or] at unmarked
    exact Leads.slash (by simpa using unmarked.1) (by simpa using unmarked.2) before
  · exact Leads.of_plain (by simpa using plain) before _

/-- Without a marker an argument is ordinary text. -/
theorem passes (argument : IsArgument text) (hidden : firstMarker text = none)
    (ended : text.getLast? = some ')' ∨ text = [] ∨ rest = []) (before : Text) :
    Passes before text rest := by
  induction argument generalizing before with
  | nil => exact Leads.nil _ before rest
  | @plain c tail plain behind ih =>
      rw [firstMarker_cons (ne_backslash plain)] at hidden
      have unmarked : ¬ (c = '/' ∧ (tail.head? = some '/' ∨ tail.head? = some '*')) := by
        intro marked
        rw [if_pos marked] at hidden
        rw [hidden] at marked
        exact marked.2.elim (by simp) (by simp)
      rw [if_neg unmarked] at hidden
      cases tail with
      | nil =>
          rcases plain with rfl | plain
          · obtain rfl : rest = [] := by simpa using ended
            exact Leads.slash (by simp) (by simp) before
          · exact Leads.of_plain (by simpa using plain) before rest
      | cons d tail =>
          refine Leads.cons (passes_first plain unmarked before) (ih hidden ?_ (c :: before))
          rcases ended with last | same | ended
          · exact .inl last
          · exact absurd same (by simp)
          · exact .inr (.inr ended)
  | @escape c tail inLine behind ih =>
      have goesOn : tail.getLast? = some ')' ∨ tail = [] ∨ rest = [] := by
        cases tail with
        | nil => exact .inr (.inl rfl)
        | cons d tail =>
            rcases ended with last | same | ended
            · exact .inl last
            · exact absurd same (by simp)
            · exact .inr (.inr ended)
      exact Leads.append (Leads.escape inLine before (tail ++ rest)) (ih hidden goesOn _)
  | backslash =>
      obtain rfl : rest = [] := by simpa using ended
      exact Leads.backslash (by simp) before

/-- At a marker `//` in an argument a line comment is found. -/
theorem finds (argument : IsArgument text) (shown : firstMarker text = some '/')
    (before rest : Text) (flag : Bool) :
    (⟨false, before, text ++ rest, .code, flag⟩ : Scanner).toList ≠ [] := by
  induction argument generalizing before flag with
  | nil => exact absurd shown (by simp [firstMarker])
  | @plain c tail plain behind ih =>
      rw [firstMarker_cons (ne_backslash plain)] at shown
      by_cases marked : c = '/' ∧ (tail.head? = some '/' ∨ tail.head? = some '*')
      · rw [if_pos marked] at shown
        obtain ⟨tail, rfl⟩ := List.head?_eq_some_iff.1 shown
        rw [marked.1]
        exact Scanner.toList_slashes_ne_nil
      · rw [if_neg marked] at shown
        obtain ⟨d, tail, rfl⟩ : ∃ d rest, tail = d :: rest := by
          apply List.exists_cons_of_ne_nil
          rintro rfl
          exact absurd shown (by simp [firstMarker])
        have first : Passes before [c] (d :: tail ++ rest) := passes_first plain marked before
        obtain ⟨later, reads⟩ := first flag
        rw [List.cons_append]
        rw [List.singleton_append] at reads
        rw [reads]
        exact ih shown (c :: before) later
  | @escape c tail inLine behind ih =>
      obtain ⟨later, reads⟩ := Leads.escape inLine before (tail ++ rest) flag
      rw [List.cons_append, List.cons_append]
      rw [List.cons_append, List.singleton_append] at reads
      rw [reads]
      exact ih shown _ later
  | backslash => exact absurd shown (by simp [firstMarker])

end IsArgument

/-- Whether an argument that takes `count` characters of a text is closed or ends with the text. -/
def EndsArgument (count : Nat) (text : Text) : Prop :=
  IsArgument (text.take count) ∧
    ((text.take count).getLast? = some ')' ∨ text.drop count = [])

theorem EndsArgument.close (rest : Text) : EndsArgument 1 (')' :: rest) :=
  ⟨.plain (.inr rfl) .nil, .inl rfl⟩

/-- A piece in front of an argument belongs to it. -/
theorem EndsArgument.behind {c : Char} {rest : Text} {more count : Nat}
    (ends : EndsArgument count (rest.drop more))
    (unit : ∀ {text : Text}, (rest = [] → text = []) → IsArgument text →
      IsArgument (c :: rest.take more ++ text)) :
    EndsArgument (1 + more + count) (c :: rest) := by
  obtain ⟨taken, left⟩ := take_unit c rest more count
  rw [EndsArgument, taken, left]
  refine ⟨unit (fun ended => by simp [ended]) ends.1, ends.2.imp_left fun last => ?_⟩
  rw [List.getLast?_append, last]
  rfl

theorem endsArgument_urlEndLength {text : Text} (sound : (urlEndLength text).1 = .url) :
    EndsArgument (urlEndLength text).2 text := by
  have spaces := take_length_takeWhile isSpace text
  have plain : ∀ c ∈ text.takeWhile isSpace, isPlain c = true := fun c member =>
    isPlain_of_isSpace (List.all_eq_true.1 List.all_takeWhile c member)
  simp only [urlEndLength] at sound ⊢
  split at sound
  · rename_i ended
    refine ⟨?_, .inr ended⟩
    rw [spaces, ← List.append_nil (text.takeWhile isSpace)]
    exact IsArgument.of_plain plain .nil
  · rename_i rest closed
    rw [EndsArgument, List.take_add, spaces, closed]
    refine ⟨IsArgument.of_plain plain (.plain (.inr rfl) .nil), .inl ?_⟩
    rw [List.getLast?_append]
    rfl
  · exact absurd sound (by simp)

theorem urlLength_token (text : Text) :
    (urlLength text).1 = .url ∨ (urlLength text).1 = .badUrl := by
  fun_induction urlLength text with
  | case2 c rest _ =>
      simp only [urlEndLength]
      split
      · exact .inl rfl
      · exact .inl rfl
      · exact .inr rfl
  | case4 | case5 => exact .inr rfl
  | case6 c rest _ _ _ _ escaped token length reads ih => rwa [reads] at ih
  | _ => exact .inl rfl

/-- **A `url(` argument.** -/
theorem endsArgument_urlLength {text : Text} (sound : (urlLength text).1 = .url) :
    EndsArgument (urlLength text).2 text := by
  fun_induction urlLength text with
  | case1 => exact ⟨.nil, .inr rfl⟩
  | case2 c rest space => exact endsArgument_urlEndLength sound
  | case3 rest _ => exact EndsArgument.close rest
  | case4 c rest _ _ spoils => exact absurd sound (by simp)
  | case5 c rest _ _ _ breaks => exact absurd sound (by simp)
  | case6 c rest noSpace noClose sane noBreak escaped token length reads ih =>
      rw [reads] at ih
      refine EndsArgument.behind (ih sound) fun ended argument => ?_
      by_cases isBackslash : c = '\\'
      · subst isBackslash
        simp only [escaped, ↓reduceDIte]
        cases rest with
        | nil =>
            rw [ended rfl]
            exact .backslash
        | cons d tail =>
            obtain ⟨more, size, digits⟩ := escape_cons d tail
            have inLine : d ≠ '\n' := by
              rintro rfl
              exact noBreak ⟨rfl, rfl⟩
            rw [size, List.take_succ_cons]
            exact .escape inLine
              (.of_plain (fun x member => isPlain_of_mem_escape (digits x member)) argument)
      · have plain : c = '/' ∨ isPlain c = true := by
          apply Classical.or_iff_not_imp_left.2
          intro noSlash
          simp only [spoilsUrl, Bool.or_eq_true, not_or, beq_iff_eq] at sane
          simp [isPlain, noSlash, isBackslash, sane]
        simp only [escaped, isBackslash, ↓reduceDIte]
        exact .plain plain argument

theorem drop_length_takeWhile (test : Char → Bool) (text : Text) :
    text.drop (text.takeWhile test).length = text.dropWhile test := by
  have whole : text.takeWhile test ++ text.dropWhile test = text :=
    List.takeWhile_append_dropWhile
  have left : (text.takeWhile test ++ text.dropWhile test).drop (text.takeWhile test).length =
      text.dropWhile test := List.drop_left
  rwa [whole] at left

/-- An argument with the white space in front of it. -/
theorem endsArgument_spaces {argument : Text}
    (sound : (urlLength (argument.drop (argument.takeWhile isSpace).length)).1 = .url) :
    EndsArgument ((argument.takeWhile isSpace).length +
      (urlLength (argument.drop (argument.takeWhile isSpace).length)).2) argument := by
  obtain ⟨isArgument, ended⟩ := endsArgument_urlLength sound
  rw [EndsArgument, List.take_add, take_length_takeWhile, ← List.drop_drop]
  refine ⟨isArgument.of_plain fun c member => ?_, ended.imp_left fun last => ?_⟩
  · exact isPlain_of_isSpace (List.all_eq_true.1 List.all_takeWhile c member)
  · rw [List.getLast?_append, last]
    rfl

/-- The part of an argument behind `before` that a scanner takes for ordinary text. -/
def exposedArgument (before argument : Text) : Text :=
  if endsInUrl before then (argument.dropWhile (· ≠ ')')).drop 1 else argument

theorem exposed_append {spelled : Text} (noParen : '(' ∉ spelled) (before argument : Text) :
    exposed before (spelled ++ '(' :: argument) =
      exposedArgument (spelled.reverse ++ before) argument := by
  have all : ∀ c ∈ spelled, decide (c ≠ '(') = true := fun c member =>
    decide_eq_true fun same => noParen (same ▸ member)
  rw [exposed, List.takeWhile_append_of_pos all, List.dropWhile_append_of_pos all,
    List.takeWhile_cons_of_neg (by simp), List.dropWhile_cons_of_neg (by simp), List.append_nil]
  rfl

/-- The scanner reads ordinary text where the exposed part of an argument starts. -/
theorem IsArgument.reachesExposed {argument rest : Text} (isArgument : IsArgument argument)
    (ended : argument.getLast? = some ')' ∨ rest = [])
    (unquoted : opensQuoted (argument ++ rest) = false) (before : Text) :
    IsArgument (exposedArgument before argument) ∧
      ((exposedArgument before argument).getLast? = some ')' ∨
        exposedArgument before argument = [] ∨ rest = []) ∧
      ∃ hidden, argument = hidden ++ exposedArgument before argument ∧
        Passes before ('(' :: hidden) (exposedArgument before argument ++ rest) := by
  by_cases seen : endsInUrl before = true
  · obtain ⟨start, behind, rfl, open_, stops⟩ := Text.exists_leading (· ≠ ')') argument
    have unclosed : ')' ∉ start := fun member => by simpa using open_ ')' member
    have inside := Leads.opensUrl seen unquoted
    rw [exposedArgument, if_pos seen, List.dropWhile_append_of_pos open_]
    cases behind with
    | nil =>
        rw [List.append_nil] at ended inside ⊢
        obtain rfl : rest = [] := ended.resolve_left fun last =>
          unclosed (List.mem_of_getLast? last)
        refine ⟨.nil, .inr (.inl rfl), start, (List.append_nil start).symm, ?_⟩
        have toEnd : Leads .url .code ('(' :: before) (start ++ []) [] :=
          Leads.append (Leads.inUrl unclosed _ _) (Leads.atEnd rfl rfl _)
        rw [List.append_nil] at toEnd
        exact Leads.trans inside rfl toEnd
    | cons c tail =>
        obtain rfl : c = ')' := by simpa using stops c tail rfl
        have exposes : ((')' :: tail).dropWhile (· ≠ ')')).drop 1 = tail := by
          rw [List.dropWhile_cons_of_neg (by simp)]
          rfl
        have argument : IsArgument tail := by
          have behindClose := isArgument.behindClose
          rwa [List.dropWhile_append_of_pos open_, exposes] at behindClose
        rw [exposes]
        refine ⟨argument, ?_, start ++ [')'], by simp, ?_⟩
        · cases tail with
          | nil => exact .inr (.inl rfl)
          | cons d tail => exact ended.imp (by simp) .inr
        · exact Leads.trans inside (by simp)
            (Leads.append (Leads.inUrl unclosed _ _) (Leads.closesUrl _ _))
  · rw [exposedArgument, if_neg seen]
    refine ⟨isArgument, ended.imp_right .inr, [], rfl, Leads.paren ?_⟩
    rw [Bool.eq_false_iff.2 seen, Bool.false_and]

/-- A `url(` token behind `before`: a name, and an argument that opens no string. -/
structure IsCall (before spelled argument rest : Text) : Prop where
  noParen : '(' ∉ spelled
  named : Passes before spelled ('(' :: (argument ++ rest))
  isArgument : IsArgument argument
  ended : argument.getLast? = some ')' ∨ rest = []
  unquoted : opensQuoted (argument ++ rest) = false

namespace IsCall

variable {before spelled argument rest : Text}

/-- **A call whose exposed part shows no comment marker is passed over.** -/
theorem passes (call : IsCall before spelled argument rest)
    (hidden : firstMarker (exposed before (spelled ++ '(' :: argument)) = none) :
    Passes before (spelled ++ '(' :: argument) rest := by
  rw [exposed_append call.noParen] at hidden
  obtain ⟨isArgument, ended, inside, cut, reads⟩ :=
    call.isArgument.reachesExposed call.ended call.unquoted (spelled.reverse ++ before)
  apply Leads.trans call.named rfl
  have goesOn := Leads.append reads (isArgument.passes hidden ended _)
  rwa [List.cons_append, ← cut] at goesOn

/-- **A call whose exposed part shows `//` first holds a line comment.** -/
theorem finds (call : IsCall before spelled argument rest)
    (shown : firstMarker (exposed before (spelled ++ '(' :: argument)) = some '/') (flag : Bool) :
    (⟨false, before, spelled ++ '(' :: argument ++ rest, .code, flag⟩ : Scanner).toList ≠ [] := by
  rw [exposed_append call.noParen] at shown
  obtain ⟨isArgument, _, inside, cut, reads⟩ :=
    call.isArgument.reachesExposed call.ended call.unquoted (spelled.reverse ++ before)
  have whole : '(' :: (argument ++ rest) =
      ('(' :: inside) ++ (exposedArgument (spelled.reverse ++ before) argument ++ rest) := by
    rw [List.cons_append, ← List.append_assoc, ← cut]
  obtain ⟨later, named⟩ := Leads.trans call.named whole reads flag
  rw [List.append_assoc, List.cons_append, whole, ← List.append_assoc, named]
  exact isArgument.finds shown _ rest later

end IsCall

theorem paren_of_nameUnit {c decoded : Char} {rest : Text} {more : Nat}
    (unit : nameUnit? c rest = some (decoded, more)) (member : '(' ∈ c :: rest.take more) :
    decoded = '(' := by
  rcases nameUnit?_cases unit with ⟨rfl, _, escaped⟩ | ⟨isName, rfl⟩
  · cases rest with
    | nil => exact absurd member (by simp)
    | cons d tail =>
        obtain ⟨digits, size, plain⟩ := escape_cons d tail
        obtain rfl : digits + 1 = more := by rw [← size, escaped]
        rw [List.take_succ_cons] at member
        obtain rfl : d = '(' := by
          by_cases first : d = '('
          · exact first
          · have later : '(' ∈ tail.take digits := by simpa [Ne.symm first] using member
            exact absurd (plain '(' later) (by decide)
        exact (congrArg Prod.fst escaped).symm
  · obtain rfl : '(' = c := by simpa using member
    exact absurd isName (by simp [isNameChar, isNameStart])

/-- A parenthesis in the spelling of a name is an escaped one, so the name holds it, too. -/
theorem paren_mem_name {text : Text} (member : '(' ∈ text.take (name text).2) :
    '(' ∈ (name text).1 := by
  fun_induction name text with
  | case1 => exact member
  | case2 c rest noUnit => exact absurd member (by simp)
  | case3 c rest decoded more unit tail length reads ih =>
      rw [reads] at ih
      rw [(take_unit c rest more length).1, List.mem_append] at member
      rcases member with here | later
      · rw [paren_of_nameUnit unit here]
        exact List.mem_cons_self
      · exact List.mem_cons_of_mem decoded (ih later)

theorem paren_notMem_of_isUrl {decoded : Text}
    (isUrl : Text.equalAnyCase decoded ['u', 'r', 'l'] = true) : '(' ∉ decoded := by
  intro member
  have lowered : decoded.map Char.toLower = ['u', 'r', 'l'].map Char.toLower := beq_iff_eq.1 isUrl
  have kept : '('.toLower ∈ decoded.map Char.toLower := List.mem_map_of_mem member
  rw [lowered] at kept
  exact absurd kept (by decide)

theorem opensQuoted_of_inside {argument : Text}
    (noDouble : ∀ tail, argument.drop (argument.takeWhile isSpace).length = '"' :: tail → False)
    (noSingle : ∀ tail, argument.drop (argument.takeWhile isSpace).length = '\'' :: tail → False) :
    opensQuoted argument = false := by
  rw [drop_length_takeWhile] at noDouble noSingle
  rw [opensQuoted]
  split
  · rfl
  · rename_i c tail inside
    rw [Bool.or_eq_false_iff, beq_eq_false_iff_ne, beq_eq_false_iff_ne]
    constructor
    · rintro rfl
      exact noDouble tail inside
    · rintro rfl
      exact noSingle tail inside

theorem name_pos {c : Char} {rest : Text} (starts : startsIdent (c :: rest) = true) :
    1 ≤ (name (c :: rest)).2 := by
  obtain ⟨⟨decoded, more⟩, unit⟩ : ∃ found, nameUnit? c rest = some found := by
    by_cases isBackslash : c = '\\'
    · subst isBackslash
      have inLine : newlineAhead rest = false := by simpa [startsIdent] using starts
      exact ⟨escape rest, by simp [nameUnit?, inLine]⟩
    · by_cases isNull : c = '\x00'
      · exact ⟨(replacement, 0), by simp [nameUnit?, isNull]⟩
      · have isName : isNameChar c = true := by
          by_cases isHyphen : c = '-'
          · rw [isHyphen]
            rfl
          · have start : isNameStart c = true := by
              simpa [startsIdent, isHyphen, isBackslash] using starts
            simp [isNameChar, start]
        exact ⟨(c, 0), by simp [nameUnit?, isBackslash, isNull, isName]⟩
  rw [name, unit]
  simp only
  omega

/-- The argument of a `url(` token begins behind white space. -/
theorem isCall_of_urlLength {before spelled argument decoded : Text}
    (noParen : '(' ∈ spelled → '(' ∈ decoded) (isUrl : Text.equalAnyCase decoded ['u', 'r', 'l'])
    (passes : Passes before spelled ('(' :: argument))
    (unquoted : opensQuoted argument = false)
    (sound : (urlLength (argument.drop (argument.takeWhile isSpace).length)).1 = .url) :
    IsCall before spelled
      (argument.take ((argument.takeWhile isSpace).length +
        (urlLength (argument.drop (argument.takeWhile isSpace).length)).2))
      (argument.drop ((argument.takeWhile isSpace).length +
        (urlLength (argument.drop (argument.takeWhile isSpace).length)).2)) := by
  obtain ⟨isArgument, ended⟩ := endsArgument_spaces sound
  exact {
    noParen := fun member => paren_notMem_of_isUrl isUrl (noParen member)
    named := by rwa [List.take_append_drop]
    isArgument := isArgument
    ended := ended
    unquoted := by rwa [List.take_append_drop] }

/-- **A name, with the parenthesis and the argument that it is glued to.** -/
theorem munchIdent_cases (before : Text) {c : Char} {rest : Text}
    (starts : startsIdent (c :: rest) = true) {token : Token} {more : Nat}
    (cut : munchIdent (c :: rest) = (token, more)) :
    (∃ decoded, token = .ident decoded ∧ Passes before (c :: rest.take more) (rest.drop more)) ∨
    (∃ decoded spelled, token = .function decoded ∧ c :: rest.take more = spelled ++ ['('] ∧
      Passes before spelled ('(' :: rest.drop more)) ∨
    (token = .url ∧ ∃ spelled argument, c :: rest.take more = spelled ++ '(' :: argument ∧
      IsCall before spelled argument (rest.drop more)) ∨
    token = .badUrl := by
  have named := passes_name before (c :: rest)
  have positive := name_pos starts
  generalize read : name (c :: rest) = result at cut named positive
  obtain ⟨decoded, length⟩ := result
  simp only at named positive
  simp only [munchIdent, read] at cut
  split at cut
  · rename_i argument ahead
    have spelled : (c :: rest).take (length + 1) = (c :: rest).take length ++ ['('] := by
      rw [List.take_add, ahead]
      rfl
    have behind : rest.drop length = argument := by
      rw [← List.drop_succ_cons (a := c), ← List.drop_drop, ahead]
      rfl
    rw [ahead] at named
    have function : (.function decoded, length) = (token, more) →
        ∃ decoded spelled, token = .function decoded ∧ c :: rest.take more = spelled ++ ['('] ∧
          Passes before spelled ('(' :: rest.drop more) := by
      rintro same
      obtain ⟨rfl, rfl⟩ := Prod.mk.inj same
      exact ⟨decoded, _, rfl, spelled, behind ▸ named⟩
    split at cut
    · rename_i isUrl
      split at cut
      · exact .inr (.inl (function cut))
      · exact .inr (.inl (function cut))
      · rename_i inside noDouble noSingle
        obtain ⟨rfl, rfl⟩ := Prod.mk.inj cut
        rcases urlLength_token (argument.drop (argument.takeWhile isSpace).length) with url | bad
        · have decodes := @paren_mem_name (c :: rest)
          rw [read] at decodes
          have call := isCall_of_urlLength decodes isUrl named
            (opensQuoted_of_inside noDouble noSingle) url
          generalize counted : (argument.takeWhile isSpace).length +
            (urlLength (argument.drop (argument.takeWhile isSpace).length)).2 = count at call
          rw [Nat.add_assoc, counted, ← List.take_succ_cons, ← List.drop_drop, behind,
            show length + count + 1 = length + 1 + count by omega, List.take_add, spelled]
          refine .inr (.inr (.inl ⟨url, (c :: rest).take length, argument.take count, ?_, call⟩))
          rw [← List.drop_drop, ahead]
          simp
        · exact .inr (.inr (.inr bad))
    · exact .inr (.inl (function cut))
  · obtain ⟨rfl, rfl⟩ := Prod.mk.inj cut
    exact .inl ⟨decoded, rfl, passes_pred (by omega) named⟩

end Css

end ScssLint
