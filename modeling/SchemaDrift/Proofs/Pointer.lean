import SchemaDrift.Proofs.Json.Equality
import SchemaDrift.Proofs.Schema.Faults

/-!
# Pointers lead to values

The text of a pointer is evaluated on a document as RFC 6901 says: it is split at its slashes, `~1`
is turned into a slash and then `~0` into a tilde, and a position of an array is written in decimal
digits without needless zeros.

* `Pointer.parse?` reads a text, and `Pointer.parse?_render` says that it finds the tokens again,
  whatever characters they hold.
* `Json.at?` follows tokens into a value. `Json.at?_of_stands`: where no key is repeated, it comes
  to the value that stands there.
* `Pointer.evaluate` does both.
-/

namespace SchemaDrift

/-- Splitting at a character undoes this. -/
theorem intercalate_cons (x : Char) (first : List Char) (rest : List (List Char)) :
    [x].intercalate (first :: rest) = first ++ rest.flatMap (x :: ·) := by
  induction rest generalizing first with
  | nil => simp
  | cons second rest ih =>
    rw [List.intercalate_cons_cons, ih, List.flatMap_cons, List.append_assoc]
    rfl

namespace Pointer

/-! ## Tokens -/

/-- Replaces a tilde before the given digit, from left to right, by a character. -/
def replaceEscape (digit c : Char) : List Char → List Char
  | '~' :: d :: cs =>
    if d = digit then c :: replaceEscape digit c cs else '~' :: replaceEscape digit c (d :: cs)
  | d :: cs => d :: replaceEscape digit c cs
  | [] => []

def unescape (text : List Char) : List Char :=
  replaceEscape '0' '~' (replaceEscape '1' '/' text)

example : unescape "a~0~1b~01".toList = "a~/b~1".toList := by decide

section

variable {digit c d : Char} {cs : List Char}

theorem replaceEscape_found : replaceEscape digit c ('~' :: digit :: cs) =
    c :: replaceEscape digit c cs := by
  rw [replaceEscape, if_pos rfl]

theorem replaceEscape_other (other : d ≠ digit) (plain : d ≠ '~') :
    replaceEscape digit c ('~' :: d :: cs) = '~' :: d :: replaceEscape digit c cs := by
  rw [replaceEscape, if_neg other, replaceEscape]
  exact fun _ _ tilde => absurd tilde plain

theorem replaceEscape_plain (plain : d ≠ '~') :
    replaceEscape digit c (d :: cs) = d :: replaceEscape digit c cs := by
  rw [replaceEscape]
  exact fun _ _ tilde => absurd tilde plain

end

/-- A character once slashes are no longer escaped. -/
def tildeEscaped (c : Char) : List Char := if c = '~' then ['~', '0'] else [c]

theorem replace_slashes (cs : List Char) :
    replaceEscape '1' '/' (cs.flatMap escapedChar) = cs.flatMap tildeEscaped := by
  induction cs with
  | nil => rfl
  | cons c cs ih =>
    rw [List.flatMap_cons, List.flatMap_cons, ← ih]
    by_cases tilde : c = '~'
    · subst tilde
      exact replaceEscape_other (by decide) (by decide)
    · have kept : tildeEscaped c = [c] := if_neg tilde
      rw [kept]
      by_cases slash : c = '/'
      · subst slash
        exact replaceEscape_found
      · have plain : escapedChar c = [c] := by rw [escapedChar, if_neg tilde, if_neg slash]
        rw [plain]
        exact replaceEscape_plain tilde

theorem replace_tildes (cs : List Char) :
    replaceEscape '0' '~' (cs.flatMap tildeEscaped) = cs := by
  induction cs with
  | nil => rfl
  | cons c cs ih =>
    rw [List.flatMap_cons]
    by_cases tilde : c = '~'
    · subst tilde
      exact replaceEscape_found.trans (congrArg _ ih)
    · have kept : tildeEscaped c = [c] := if_neg tilde
      rw [kept]
      exact (replaceEscape_plain tilde).trans (congrArg _ ih)

theorem unescape_escaped (cs : List Char) : unescape (cs.flatMap escapedChar) = cs := by
  rw [unescape, replace_slashes, replace_tildes]

theorem noSlash_escaped (cs : List Char) : '/' ∉ cs.flatMap escapedChar := by
  intro slash
  obtain ⟨c, -, within⟩ := List.mem_flatMap.mp slash
  unfold escapedChar at within
  split at within
  · simp at within
  · split at within
    · simp at within
    · next other => exact other (List.mem_singleton.mp within).symm

/-! ## Texts -/

/-- The tokens of a text: it is empty or starts with a slash. -/
def parse? (text : String) : Option Pointer :=
  match text.toList.splitOn '/' with
  | [] :: tokens => some (tokens.map fun token => String.ofList (unescape token))
  | _ => none

/-- The text of a pointer is read back. -/
theorem parse?_render (p : Pointer) : parse? p.render = some p := by
  have noSlash : ∀ token ∈ [] :: p.map fun t => t.toList.flatMap escapedChar, '/' ∉ token := by
    intro token htoken
    rcases List.mem_cons.mp htoken with rfl | listed
    · exact List.not_mem_nil
    · obtain ⟨t, -, rfl⟩ := List.mem_map.mp listed
      exact noSlash_escaped _
  -- Each token has its slash in front, so the text is split into one more part, an empty one.
  have joined : p.render.toList =
      ['/'].intercalate ([] :: p.map fun t => t.toList.flatMap escapedChar) := by
    rw [render, String.toList_ofList, intercalate_cons, List.nil_append, List.flatMap_map]
    rfl
  rw [parse?, joined, List.splitOn_intercalate '/' noSlash (List.cons_ne_nil _ _)]
  dsimp only
  rw [List.map_map]
  refine congrArg some ((List.map_congr_left fun t _ => ?_).trans (List.map_id p))
  show String.ofList (unescape (t.toList.flatMap escapedChar)) = t
  rw [unescape_escaped, String.ofList_toList]

/-- The position that a token is the decimal numeral of. -/
def position? (token : String) : Option Nat :=
  let i := Nat.ofDigitChars 10 token.toList 0
  if toString i = token then some i else none

example : position? "10" = some 10 ∧ position? "010" = none ∧ position? "" = none := by
  decide +kernel

theorem position?_toString (i : Nat) : position? (toString i) = some i := by
  have spelled : (toString i).toList = Nat.toDigits 10 i := Nat.toList_repr
  rw [position?, spelled, Nat.ofDigitChars_ten_toDigits]
  exact if_pos rfl

end Pointer

/-! ## Values -/

def Json.at? : Json → Pointer → Option Json
  | x, [] => some x
  | .obj fields, token :: rest => (fields.lookup token).bind fun x => x.at? rest
  | .arr xs, token :: rest =>
    (Pointer.position? token).bind fun i => xs[i]?.bind fun x => x.at? rest
  | _, _ :: _ => none

/-- Following the tokens of a place, one comes to the value that stands there. -/
theorem Json.at?_of_stands {root x : Json} {p : Pointer} (h : root.Stands p x)
    (distinct : root.Throughout DistinctKeys) : root.at? p = some x := by
  induction h with
  | here x => cases x <;> rfl
  | field listed _ ih =>
    rw [Json.at?, Fields.lookup_of_mem distinct.here listed, Option.bind_some]
    exact ih (distinct.field listed)
  | item found _ ih =>
    rw [Json.at?, Pointer.position?_toString, Option.bind_some, found, Option.bind_some]
    exact ih (distinct.item (List.mem_of_getElem? found))

/-- Evaluates the text of a pointer on a document. -/
def Pointer.evaluate (text : String) (document : Json) : Option Json :=
  (parse? text).bind document.at?

theorem Pointer.evaluate_render {root x : Json} {p : Pointer} (h : root.Stands p x)
    (distinct : root.Throughout Json.DistinctKeys) : evaluate p.render root = some x := by
  rw [evaluate, parse?_render, Option.bind_some, Json.at?_of_stands h distinct]

end SchemaDrift
