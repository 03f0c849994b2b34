import SchemaDrift.Proofs.Json.Equality
import SchemaDrift.Proofs.Json.Literals
import SchemaDrift.Proofs.Writer

/-!
# Texts of values in messages can be told apart

* `Json.message_number_injective`: a number is read back from its text.
* `Json.leadKind` is the kind of a value as the first character of its text tells it.
* `Json.determines_message`: the text of a value determines the value, also the order of its keys
  and whether a number is an integer or a double.
-/

namespace SchemaDrift.Json

open Writer

/-! ## Numbers -/

/-- Whether a number has a sign, and its text without the sign. -/
def unsigned : Number → Bool × List Char
  | .int n => (decide (n < 0), Nat.toDigits 10 n.natAbs)
  | .double .nan => (false, ['n', 'a', 'n'])
  | .double (.infinite negative) => (negative, ['i', 'n', 'f'])
  | .double (.finite negative scale fraction) => (negative, Double.magnitudeText scale fraction)

theorem message_number (n : Number) :
    message.number n = signText (unsigned n).1 ++ (unsigned n).2 := by
  rcases n with n | (_ | negative | ⟨negative, scale, fraction⟩)
  · exact wire_int n
  · rfl
  · cases negative <;> rfl
  · exact wire_double negative

theorem unsigned_lead (n : Number) :
    ∃ c cs, (unsigned n).2 = c :: cs ∧ (c.isDigit = true ∨ c = 'n' ∨ c = 'i') := by
  rcases n with n | (_ | negative | ⟨negative, scale, fraction⟩)
  · obtain ⟨c, cs, digits, digit⟩ := digits_lead n.natAbs
    exact ⟨c, cs, digits, .inl digit⟩
  · exact ⟨_, _, rfl, .inr (.inl rfl)⟩
  · exact ⟨_, _, rfl, .inr (.inr rfl)⟩
  · obtain ⟨c, cs, text, digit⟩ := lead_magnitude scale fraction
    exact ⟨c, cs, text, .inl digit⟩

/-- The number that stands behind a sign. What is not read as a number is a word, or it has more
digits than are read. -/
def numberOf (negative : Bool) (cs : List Char) : Number :=
  match readNumber negative cs with
  | .ok (.num n, _) => n
  | _ =>
    if cs = ['n', 'a', 'n'] then .double .nan
    else if cs = ['i', 'n', 'f'] then .double (.infinite negative)
    else .int (if negative then -(digitsValue cs : Int) else digitsValue cs)

/-- A number is given back by its sign and the text behind it. -/
theorem numberOf_unsigned (n : Number) : numberOf (unsigned n).1 (unsigned n).2 = n := by
  rcases n with n | (_ | negative | ⟨negative, scale, fraction⟩)
  · have signed := Double.signed_natAbs n
    dsimp only [unsigned, numberOf]
    rw [readNumber_digits]
    split
    · next read =>
      split at read
      · exact nomatch read
      · obtain ⟨same, -⟩ := Prod.mk.inj (Except.ok.inj read)
        rw [← Json.num.inj same, signed]
    · obtain ⟨c, cs, digits, digit⟩ := digits_lead n.natAbs
      have apart (d : Char) (ds : List Char) (hd : d.isDigit = false) :
          Nat.toDigits 10 n.natAbs ≠ d :: ds := by
        rw [digits]
        exact fun same => ne_of_isDigit digit hd (List.cons.inj same).1
      rw [if_neg (apart _ _ (by decide)), if_neg (apart _ _ (by decide)), digitsValue_digits,
        signed]
  · rfl
  · cases negative <;> rfl
  · dsimp only [unsigned, numberOf]
    rw [readNumber_magnitude]

/-- A text with a sign in front determines the sign. -/
theorem signText_inj {a b : Bool} {cs ds : List Char} (hc : cs.head? ≠ some '-')
    (hd : ds.head? ≠ some '-') (h : signText a ++ cs = signText b ++ ds) : a = b ∧ cs = ds := by
  cases a <;> cases b
  · exact ⟨rfl, h⟩
  · rw [show cs = '-' :: ds from h] at hc
    exact absurd rfl hc
  · rw [show ds = '-' :: cs from h.symm] at hd
    exact absurd rfl hd
  · exact ⟨rfl, List.append_cancel_left h⟩

/-- Different numbers have different texts; an integer has another text than a double, and `nan`
that of no other number. -/
theorem message_number_injective : Function.Injective message.number := by
  intro m n h
  rw [message_number, message_number] at h
  have unled (n : Number) : (unsigned n).2.head? ≠ some '-' := by
    obtain ⟨c, cs, text, lead⟩ := unsigned_lead n
    rw [text]
    rintro same
    obtain rfl := Option.some.inj same
    exact absurd lead (by decide)
  obtain ⟨sign, text⟩ := signText_inj (unled m) (unled n) h
  rw [← numberOf_unsigned m, ← numberOf_unsigned n, sign, text]

theorem numeric_number (n : Number) : ∀ c ∈ message.number n, Numeric c := by
  have sign (negative : Bool) : ∀ c ∈ signText negative, Numeric c := by
    cases negative <;> exact forall_of_all (by decide)
  rw [message_number]
  refine List.forall_mem_append.mpr ⟨sign _, ?_⟩
  rcases n with n | (_ | negative | ⟨negative, scale, fraction⟩)
  · exact fun c hc => .inl (isDigit_of_mem_digits hc)
  · exact forall_of_all (by decide)
  · exact show ∀ c ∈ ['i', 'n', 'f'], Numeric c from forall_of_all (by decide)
  · exact forall_magnitude scale fraction (fun _ => .inl) (forall_of_all (by decide))

theorem determines_number (n : Number) :
    Determines (fun n rest => message.number n ++ rest) n := by
  intro m r s hr hs h
  have texts := congrArg (List.takeWhile fun c => decide (Numeric c)) h
  rw [takeWhile_numeric (numeric_number n) hr, takeWhile_numeric (numeric_number m) hs] at texts
  obtain rfl := message_number_injective texts
  exact ⟨rfl, List.append_cancel_left h⟩

/-! ## The first character -/

/-- What the first character of a text says about the value that it spells. -/
def leadKind (c : Char) : Option Kind :=
  if c = 'N' then some .null
  else if c = 'T' ∨ c = 'F' then some .boolean
  else if c = '\x27' ∨ c = '\x22' then some .string
  else if c = '[' then some .array
  else if c = '{' then some .object
  else if c = '-' ∨ c = 'n' ∨ c = 'i' ∨ c.isDigit then some .number
  else none

theorem leadKind_digit {c : Char} (h : c.isDigit = true) : leadKind c = some .number := by
  have apart (d : Char) (hd : d.isDigit = false) : c ≠ d := ne_of_isDigit h hd
  simp [leadKind, h, apart 'N' (by decide), apart 'T' (by decide), apart 'F' (by decide),
    apart '\x27' (by decide), apart '\x22' (by decide), apart '[' (by decide),
    apart '{' (by decide)]

theorem number_leadKind (n : Number) :
    ∃ c cs, message.number n = c :: cs ∧ leadKind c = some .number := by
  obtain ⟨c, cs, text, lead⟩ := unsigned_lead n
  rw [message_number, text]
  cases (unsigned n).1
  · refine ⟨c, cs, rfl, ?_⟩
    rcases lead with digit | rfl | rfl
    · exact leadKind_digit digit
    · decide
    · decide
  · exact ⟨'-', c :: cs, rfl, by decide⟩

/-- The first character of the text of a value tells its kind. -/
theorem message_lead (x : Json) (rest : List Char) :
    ∃ c cs, spell message x rest = c :: cs ∧ leadKind c = some x.kind := by
  cases x with
  | null => exact ⟨'N', _, rfl, by decide⟩
  | bool b => cases b <;> exact ⟨_, _, rfl, by decide⟩
  | num n =>
    obtain ⟨c, cs, text, lead⟩ := number_leadKind n
    exact ⟨c, cs ++ rest, congrArg (· ++ rest) text, lead⟩
  | str s =>
    obtain ⟨mark, more, text, isMark⟩ := Text.quotedChars_lead s.toList
    refine ⟨mark, more ++ rest, congrArg (· ++ rest) text, ?_⟩
    rcases isMark with rfl | rfl <;> rfl
  | arr xs => exact ⟨'[', _, rfl, rfl⟩
  | obj fs => exact ⟨'{', _, rfl, rfl⟩

/-- A character that starts no value starts no text of a value. -/
theorem message_ne {c : Char} (hc : leadKind c = none) (x : Json) (rest cs : List Char) :
    spell message x rest ≠ c :: cs := by
  obtain ⟨d, ds, text, lead⟩ := message_lead x rest
  rw [text]
  intro same
  rw [(List.cons.inj same).1, hc] at lead
  exact nomatch lead

theorem leadKind_delimiter {c : Char} (h : IsDelimiter c) : leadKind c = none := by
  simp only [IsDelimiter, List.mem_cons, List.not_mem_nil, or_false] at h
  rcases h with rfl | rfl | rfl | rfl <;> rfl

theorem opens_message : Opens (spell message) := by
  intro x rest
  obtain ⟨c, cs, text, lead⟩ := message_lead x rest
  refine ⟨c, cs, text, fun delimiter => ?_⟩
  rw [leadKind_delimiter delimiter] at lead
  exact nomatch lead

/-- Values with the same text are of the same kind. -/
theorem kind_eq_of_message {x y : Json} {r s : List Char}
    (h : spell message x r = spell message y s) : x.kind = y.kind := by
  obtain ⟨c, cs, text, lead⟩ := message_lead x r
  obtain ⟨d, ds, text', lead'⟩ := message_lead y s
  rw [text, text'] at h
  rw [(List.cons.inj h).1, lead'] at lead
  exact (Option.some.inj lead).symm

/-! ## Values -/

theorem spellItems_eq (lead : List Char) (xs : List Json) (rest : List Char) :
    spellItems message lead xs rest = entries (spell message) lead xs rest := by
  induction xs generalizing lead with
  | nil => rfl
  | cons x xs ih => rw [spellItems, entries, ih]

theorem spellFields_eq (lead : List Char) (fs : List (String × Json)) (rest : List Char) :
    spellFields message lead fs rest = entries (keyed (spell message)) lead fs rest := by
  induction fs generalizing lead with
  | nil => rfl
  | cons f fs ih =>
    rw [spellFields, entries, ih, List.append_assoc]
    rfl

/-- The text of a value determines the value, and where it ends. The induction is on what stands in
the value; values of another kind are ruled out by their first character. -/
theorem determines_message (x : Json) : Determines (spell message) x := by
  induction x using parts_induction with
  | null =>
    intro y r s _ _ h
    cases y with
    | null => exact ⟨rfl, List.append_cancel_left h⟩
    | _ => exact nomatch kind_eq_of_message h
  | bool a =>
    intro y r s _ _ h
    cases y with
    | bool b =>
      cases a <;> cases b
      · exact ⟨rfl, List.append_cancel_left h⟩
      · exact absurd (List.cons.inj h).1 (by decide)
      · exact absurd (List.cons.inj h).1 (by decide)
      · exact ⟨rfl, List.append_cancel_left h⟩
    | _ => exact nomatch kind_eq_of_message h
  | num m =>
    intro y r s hr hs h
    cases y with
    | num n =>
      obtain ⟨rfl, rest⟩ := determines_number m hr hs h
      exact ⟨rfl, rest⟩
    | _ => exact nomatch kind_eq_of_message h
  | str a =>
    intro y r s hr hs h
    cases y with
    | str b =>
      obtain ⟨rfl, rest⟩ := determines_quoted a hr hs h
      exact ⟨rfl, rest⟩
    | _ => exact nomatch kind_eq_of_message h
  | arr xs ih =>
    intro y r s _ _ h
    cases y with
    | arr ys =>
      have items := (List.cons.inj h).2
      rw [spellItems_eq, spellItems_eq] at items
      obtain ⟨rfl, ends⟩ := entries_inj ih (.inl rfl) (opens_message.ends (by decide) r)
        (opens_message.ends (by decide) s) items
      exact ⟨rfl, (List.cons.inj ends).2⟩
    | _ => exact nomatch kind_eq_of_message h
  | obj fs ih =>
    intro y r s _ _ h
    cases y with
    | obj gs =>
      have fields := (List.cons.inj h).2
      rw [spellFields_eq, spellFields_eq] at fields
      have opens := opens_keyed (spell message)
      obtain ⟨rfl, ends⟩ := entries_inj (fun f hf => (ih f.1 f.2 hf).keyed) (.inl rfl)
        (opens.ends (by decide) r) (opens.ends (by decide) s) fields
      exact ⟨rfl, (List.cons.inj ends).2⟩
    | _ => exact nomatch kind_eq_of_message h

end SchemaDrift.Json
