import ScssLint.Proofs.Css.Mapping
import ScssLint.Proofs.Selector.Places

/-! # What only the tokens decide

How many pieces belong to a name and where a list is cut do not depend on how the pieces are
spelled, only on their tokens (`SelectorList.tailLength_congr`, `SelectorList.nameLength?_congr`).
-/

namespace ScssLint

open Css

namespace SelectorList

variable {piece piece' : Piece} {pieces pieces' : List Piece}

theorem isDelim_congr (same : piece'.token = piece.token) (sign : Char) :
    isDelim sign piece' = isDelim sign piece := by
  rw [isDelim, same, isDelim]

theorem isCurlyBlock_congr (same : piece'.token = piece.token) :
    isCurlyBlock piece' = isCurlyBlock piece := by
  rw [isCurlyBlock, same, isCurlyBlock]

theorem carriesOnName_congr (same : piece'.token = piece.token) :
    carriesOnName piece' = carriesOnName piece := by
  rw [carriesOnName, same, carriesOnName]

/-- The tokens of some pieces. -/
abbrev tokens (pieces : List Piece) : List Token :=
  pieces.map Piece.token

theorem tokens_cons (same : tokens pieces' = tokens (piece :: pieces)) :
    ∃ first rest, pieces' = first :: rest ∧ first.token = piece.token ∧
      tokens rest = tokens pieces := by
  cases pieces' with
  | nil => exact absurd same.symm (List.cons_ne_nil _ _)
  | cons first rest =>
      obtain ⟨token, others⟩ := List.cons.inj same
      exact ⟨first, rest, rfl, token, others⟩

theorem tailLength_congr (same : tokens pieces' = tokens pieces) :
    tailLength pieces' = tailLength pieces := by
  induction pieces using tailLength.induct generalizing pieces' with
  | case1 hash block isTail =>
      obtain ⟨hash', pieces', rfl, isHash, same⟩ := tokens_cons same
      obtain ⟨block', pieces', rfl, isBlock, same⟩ := tokens_cons same
      obtain rfl := List.map_eq_nil_iff.1 same
      simp only [tailLength, isDelim_congr isHash, isCurlyBlock_congr isBlock]
  | case2 hash block isTail piece more carries ih =>
      obtain ⟨hash', pieces', rfl, isHash, same⟩ := tokens_cons same
      obtain ⟨block', pieces', rfl, isBlock, same⟩ := tokens_cons same
      obtain ⟨piece', more', rfl, isPiece, same⟩ := tokens_cons same
      simp only [tailLength, isDelim_congr isHash, isCurlyBlock_congr isBlock, isTail,
        carriesOnName_congr isPiece, carries, ih same, ↓reduceIte]
  | case3 hash block isTail piece more stops ih =>
      obtain ⟨hash', pieces', rfl, isHash, same⟩ := tokens_cons same
      obtain ⟨block', pieces', rfl, isBlock, behind⟩ := tokens_cons same
      obtain ⟨piece', more', rfl, isPiece, _⟩ := tokens_cons behind
      simp only [tailLength, isDelim_congr isHash, isCurlyBlock_congr isBlock, isTail,
        carriesOnName_congr isPiece, stops, ih behind, ↓reduceIte, Bool.false_eq_true]
  | case4 hash block rest noTail =>
      obtain ⟨hash', pieces', rfl, isHash, same⟩ := tokens_cons same
      obtain ⟨block', pieces', rfl, isBlock, same⟩ := tokens_cons same
      have none {hash block : Piece} (noTail : ¬ (isDelim '#' hash && isCurlyBlock block) = true)
          (rest : List Piece) : tailLength (hash :: block :: rest) = 0 := by
        cases rest <;> simp only [tailLength, noTail, ↓reduceIte, Bool.false_eq_true]
      rw [none noTail, none]
      rwa [isDelim_congr isHash, isCurlyBlock_congr isBlock]
  | case5 pieces short =>
      have length := congrArg List.length same
      rw [List.length_map, List.length_map] at length
      rcases pieces with _ | ⟨hash, _ | ⟨block, rest⟩⟩
      · obtain rfl := List.eq_nil_of_length_eq_zero length
        rfl
      · obtain ⟨hash', rfl⟩ := List.length_eq_one_iff.1 length
        rfl
      · exact absurd rfl (short hash block rest)

theorem nameLength?_congr (same : tokens pieces' = tokens pieces) :
    nameLength? pieces' = nameLength? pieces := by
  cases pieces with
  | nil =>
      obtain rfl := List.map_eq_nil_iff.1 same
      rfl
  | cons piece rest =>
      obtain ⟨piece', rest', rfl, isPiece, others⟩ := tokens_cons same
      cases rest with
      | nil =>
          obtain rfl := List.map_eq_nil_iff.1 others
          simp only [nameLength?, isPiece]
      | cons block rest =>
          have tail := tailLength_congr others
          obtain ⟨block', rest', rfl, isBlock, behind⟩ := tokens_cons others
          simp only [nameLength?, isPiece, isCurlyBlock_congr isBlock, tail,
            tailLength_congr behind]

theorem elementName?_congr (same : tokens pieces' = tokens pieces) :
    elementName? pieces' = elementName? pieces := by
  cases pieces with
  | nil =>
      obtain rfl := List.map_eq_nil_iff.1 same
      rfl
  | cons piece rest =>
      obtain ⟨piece', rest', rfl, isPiece, _⟩ := tokens_cons same
      simp only [elementName?, isPiece]

theorem head?_any_isCurlyBlock_congr (same : tokens pieces' = tokens pieces) :
    pieces'.head?.any isCurlyBlock = pieces.head?.any isCurlyBlock := by
  cases pieces with
  | nil =>
      obtain rfl := List.map_eq_nil_iff.1 same
      rfl
  | cons piece rest =>
      obtain ⟨piece', rest', rfl, isPiece, _⟩ := tokens_cons same
      exact isCurlyBlock_congr isPiece

theorem tokens_drop (same : tokens pieces' = tokens pieces) (count : Nat) :
    tokens (pieces'.drop count) = tokens (pieces.drop count) := by
  rw [tokens, tokens, List.map_drop, List.map_drop]
  exact congrArg (List.drop count) same

theorem tokens_map {change : Lexeme → Lexeme} (keeps : KeepsTokens change) (pieces : List Piece) :
    tokens (pieces.map (.map change)) = tokens pieces := by
  rw [tokens, List.map_map]
  exact List.map_congr_left fun piece _ => Piece.token_map keeps piece

end SelectorList

end ScssLint
