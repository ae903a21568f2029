import ScssLint.Text.Basic

/-!
# Stylesheet roots

A file holds one or more stylesheets that are read on their own.  A `.css` or `.scss` file is one
stylesheet; a markup file holds one in each of its `style` elements.  `Root.ofSource` finds them
all, with the byte offset at which each starts.
-/

namespace ScssLint

/-- The language of a file as a whole. -/
inductive Dialect where
  /-- Plain CSS. -/
  | css
  /-- SCSS, also for files of an unknown kind. -/
  | scss
  /-- A markup document with `style` elements. -/
  | markup
deriving DecidableEq, Repr

namespace Dialect

/-- The dialect of a file with the given extension. -/
def ofExtension (extension : Option String) : Dialect :=
  match extension.map String.toLower with
  | some "css" => css
  | some "html" | some "htm" | some "vue" | some "svelte" => markup
  | _ => scss

/-- The extensions of the files that are picked from a directory. -/
def lintableExtensions : List String :=
  ["css", "scss", "html", "htm", "vue", "svelte"]

end Dialect

/-- One stylesheet inside a file. -/
structure Root where
  /-- The byte offset of `text` in the file. -/
  offset : Nat
  /-- The stylesheet. -/
  text : Text
deriving DecidableEq, Repr

namespace Root

/-- How an opening tag of a `style` element begins. -/
def openingTag : Text := ['<', 's', 't', 'y', 'l', 'e']

/-- How a closing tag of a `style` element begins. -/
def closingTag : Text := ['<', '/', 's', 't', 'y', 'l', 'e']

/-- Whether a tag name ends in front of this text: `styles` is another element. -/
def endsTagName : Text → Bool
  | [] => false
  | c :: _ => c == '>' || c == '/' || isSpace c

/-- The bodies of the `style` elements in a text that starts at `offset`.

An element without a closing tag runs to the end; an opening tag without `>` ends the search. -/
def styleElements (offset : Nat) (text : Text) : List Root :=
  match _hopen : Text.splitWhere (Text.startsWithAnyCase openingTag) text with
  | none => []
  | some (before, tag) =>
      let attributes := tag.drop openingTag.length
      let attributesAt := offset + Text.bytes before + Text.bytes openingTag
      if endsTagName attributes then
        match _hclose : Text.splitWhere (Text.startsWith ['>']) attributes with
        | none => []
        | some (inside, close) =>
            let rest := close.drop 1
            let bodyAt := attributesAt + Text.bytes inside + 1
            match _hend : Text.splitWhere (Text.startsWithAnyCase closingTag) rest with
            | none => [⟨bodyAt, rest⟩]
            | some (body, after) => ⟨bodyAt, body⟩ :: styleElements (bodyAt + Text.bytes body) after
      else
        styleElements attributesAt attributes
termination_by text.length
decreasing_by
  · have htext := congrArg List.length (Text.splitWhere_eq _hopen).1
    have htag := congrArg List.length (Text.splitWhere_eq _hclose).1
    have hrest := congrArg List.length (Text.splitWhere_eq _hend).1
    have hmark : close ≠ [] := fun hnil => by
      have := (Text.splitWhere_eq _hclose).2
      simp [hnil, Text.startsWith] at this
    have hlong := List.length_pos_iff.2 hmark
    simp only [attributes, rest, List.length_append, List.length_drop] at htext htag hrest
    omega
  · have htext := congrArg List.length (Text.splitWhere_eq _hopen).1
    have hlong : tag ≠ [] := fun hnil => by
      have := (Text.splitWhere_eq _hopen).2
      simp [hnil, Text.startsWithAnyCase, Text.startsWith, openingTag] at this
    have := List.length_pos_iff.2 hlong
    have hname : 0 < openingTag.length := by decide
    simp only [List.length_append, List.length_drop] at htext ⊢
    omega

/-- The stylesheets of a file. -/
def ofSource (source : Text) : Dialect → List Root
  | .css | .scss => [⟨0, source⟩]
  | .markup => styleElements 0 source

end Root

end ScssLint
