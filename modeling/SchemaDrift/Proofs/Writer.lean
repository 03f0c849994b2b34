import SchemaDrift.Proofs.Quoted
import SchemaDrift.Text.Writer

/-!
# Texts that determine what they were written for

Only a number has no end of its own: it goes on as far as there are characters of numbers. In front
of a rest that starts with another character a text can tell what was written and what is left.

* `Writer.Determines` says so of a value and a way of writing.
* `Writer.entries_inj` is about entries in front of what ends them: if the text of each entry
  determines the entry, that of all of them determines their list.
* `Writer.Determines.optional`, `.tuple`, `.keyed` and `.table` carry it over to compound values.
-/

namespace SchemaDrift.Writer

/-! ## Where numbers end -/

/-- A character that may stand in a number: a digit, a point, a sign, or a letter of an exponent, of
`nan` or of `inf`. -/
def Numeric (c : Char) : Prop :=
  c.isDigit = true ∨ c ∈ ['.', '+', '-', 'e', 'n', 'a', 'i', 'f']

instance : DecidablePred Numeric := fun c =>
  inferInstanceAs (Decidable (c.isDigit = true ∨ c ∈ ['.', '+', '-', 'e', 'n', 'a', 'i', 'f']))

/-- A rest that does not go on with the number in front of it. -/
def StopsNumber (rest : List Char) : Prop := ∀ c ∈ rest.head?, ¬Numeric c

theorem stopsNumber_cons {c : Char} (h : ¬Numeric c) (rest : List Char) :
    StopsNumber (c :: rest) := by
  intro d hd
  obtain rfl : c = d := by simpa using hd
  exact h

/-- A number is all that is taken of it and what stops it. -/
theorem takeWhile_numeric {cs rest : List Char} (h : ∀ c ∈ cs, Numeric c)
    (stops : StopsNumber rest) : (cs ++ rest).takeWhile (fun c => decide (Numeric c)) = cs := by
  have nothing : rest.takeWhile (fun c => decide (Numeric c)) = [] := by
    cases rest with
    | nil => rfl
    | cons c rest => simp [stops c rfl]
  rw [List.takeWhile_append_of_pos fun c hc => decide_eq_true (h c hc), nothing, List.append_nil]

/-! ## Single values -/

variable {α β : Type} {write : Writer α} {x y : α} {r s : List Char}

/-- The text that is written for a value determines the value, and where the text ends. -/
def Determines (write : Writer α) (x : α) : Prop :=
  ∀ ⦃y : α⦄ ⦃r s : List Char⦄, StopsNumber r → StopsNumber s → write x r = write y s →
    x = y ∧ r = s

/-- What stands behind the name of a field is determined. -/
theorem next_injective (name : String) : Function.Injective (next name) := by
  intro r s same
  have behind : ',' :: ' ' :: name.toList ++ '=' :: r =
      ',' :: ' ' :: name.toList ++ '=' :: s := same
  exact (List.cons.inj (List.append_cancel_left behind)).2

namespace Determines

theorem of_injective {f : β → α} (hf : Function.Injective f) {x : β}
    (h : Determines write (f x)) : Determines (fun x => write (f x)) x := by
  intro y r s hr hs same
  obtain ⟨value, rest⟩ := h hr hs same
  exact ⟨hf value, rest⟩

/-- A value in front of a character that is the same on both sides. -/
theorem before {c : Char} (h : Determines write x) (hc : ¬Numeric c)
    (same : write x (c :: r) = write y (c :: s)) : x = y ∧ r = s := by
  obtain ⟨value, rest⟩ := h (stopsNumber_cons hc r) (stopsNumber_cons hc s) same
  exact ⟨value, (List.cons.inj rest).2⟩

/-- A value in front of the next field of a record. -/
theorem next {name : String} (h : Determines write x)
    (same : write x (next name r) = write y (next name s)) : x = y ∧ r = s := by
  obtain ⟨value, rest⟩ := h (stopsNumber_cons (by decide) _) (stopsNumber_cons (by decide) _) same
  exact ⟨value, next_injective name rest⟩

end Determines

theorem determines_quoted (name : String) : Determines quoted name := by
  intro more r s _ _ h
  obtain ⟨chars, rest⟩ := Text.quotedChars_append_inj h
  exact ⟨String.toList_injective chars, rest⟩

/-! ## Entries -/

/-- A character that an entry does not start with, as it goes on with entries or ends them. -/
def IsDelimiter (c : Char) : Prop := c ∈ [',', ')', ']', '}']

instance : DecidablePred IsDelimiter := fun c =>
  inferInstanceAs (Decidable (c ∈ [',', ')', ']', '}']))

/-- No text starts as if it went on with entries or ended them. -/
def Opens (write : Writer α) : Prop := ∀ x r, ∃ c cs, write x r = c :: cs ∧ ¬IsDelimiter c

theorem Opens.ne (h : Opens write) {c : Char} (hc : IsDelimiter c) (x : α) (r cs : List Char) :
    write x r ≠ c :: cs := by
  obtain ⟨d, ds, text, other⟩ := h x r
  rw [text]
  intro same
  rw [(List.cons.inj same).1] at other
  exact other hc

/-- What stands in front of an entry: nothing, or a comma and a blank. -/
def IsLead (lead : List Char) : Prop := lead = [] ∨ lead = [',', ' ']

/-- A text that ends entries: it does not go on with a number, and no entry starts it. -/
structure Ends (write : Writer α) (rest : List Char) : Prop where
  stops : StopsNumber rest
  apart : ∀ lead, IsLead lead → ∀ x r, lead ++ write x r ≠ rest

/-- Entries end with a closing mark. -/
theorem Opens.ends (h : Opens write) {c : Char} (hc : c ∈ [')', ']', '}']) (rest : List Char) :
    Ends write (c :: rest) where
  stops := by
    simp only [List.mem_cons, List.not_mem_nil, or_false] at hc
    rcases hc with rfl | rfl | rfl <;> exact stopsNumber_cons (by decide) rest
  apart := by
    rintro lead (rfl | rfl) x r
    · exact h.ne (List.mem_cons_of_mem _ hc) x r rest
    · intro same
      rw [← (List.cons.inj same).1] at hc
      exact absurd hc (by decide)

/-- The end of a tuple ends its items. -/
theorem Opens.ends_tupleEnd (h : Opens write) (xs : List α) (rest : List Char) :
    Ends write (tupleEnd xs rest) := by
  unfold tupleEnd
  split
  · refine ⟨stopsNumber_cons (by decide) _, ?_⟩
    rintro lead (rfl | rfl) y r
    · exact h.ne (by simp [IsDelimiter]) y r _
    · exact fun same => absurd (List.cons.inj (List.cons.inj same).2).1 (by decide)
  · exact h.ends (by decide) rest

theorem stopsNumber_entries {xs : List α} {rest : List Char} (h : StopsNumber rest) :
    StopsNumber (entries write [',', ' '] xs rest) := by
  cases xs with
  | nil => exact h
  | cons x xs => exact stopsNumber_cons (by decide) _

/-- If the text of each entry determines the entry, then the text of all of them, up to what ends
them, determines their list. -/
theorem entries_inj {lead : List Char} {xs ys : List α} {c d : List Char}
    (each : ∀ x ∈ xs, Determines write x) (hlead : IsLead lead) (hc : Ends write c)
    (hd : Ends write d) (h : entries write lead xs c = entries write lead ys d) :
    xs = ys ∧ c = d := by
  induction xs generalizing lead ys with
  | nil =>
    cases ys with
    | nil => exact ⟨rfl, h⟩
    | cons y ys => exact absurd h.symm (hc.apart lead hlead y _)
  | cons x xs ih =>
    cases ys with
    | nil => exact absurd h (hd.apart lead hlead x _)
    | cons y ys =>
      obtain ⟨first, more⟩ := List.forall_mem_cons.mp each
      obtain ⟨rfl, rest⟩ := first (stopsNumber_entries hc.stops) (stopsNumber_entries hd.stops)
        (List.append_cancel_left h)
      obtain ⟨rfl, ends⟩ := ih more (.inr rfl) rest
      exact ⟨rfl, ends⟩

theorem opens_quoted : Opens quoted := by
  intro name r
  obtain ⟨mark, more, text, isMark⟩ := Text.quotedChars_lead name.toList
  refine ⟨mark, more ++ r, congrArg (· ++ r) text, ?_⟩
  rcases isMark with rfl | rfl <;> decide

/-! ## Compound values -/

theorem opens_keyed (write : Writer α) : Opens (keyed write) := fun f _ => opens_quoted f.1 _

namespace Determines

/-- The word for an absent value must not start the text of any value. -/
theorem optional {absent : String} (apart : ∀ x r s, write x r ≠ absent.toList ++ s) {o : Option α}
    (each : ∀ x ∈ o, Determines write x) : Determines (optional absent write) o := by
  intro o' r s hr hs h
  rcases o with _ | x <;> rcases o' with _ | y
  · exact ⟨rfl, List.append_cancel_left h⟩
  · exact absurd h.symm (apart y s r)
  · exact absurd h (apart x r s)
  · obtain ⟨rfl, rest⟩ := each x rfl hr hs h
    exact ⟨rfl, rest⟩

theorem tuple (opens : Opens write) {xs : List α} (each : ∀ x ∈ xs, Determines write x) :
    Determines (tuple write) xs := by
  intro ys r s _ _ h
  obtain ⟨rfl, ends⟩ := entries_inj each (.inl rfl) (opens.ends_tupleEnd xs r)
    (opens.ends_tupleEnd ys s) (List.cons.inj h).2
  refine ⟨rfl, ?_⟩
  unfold tupleEnd at ends
  split at ends
  · exact (List.cons.inj (List.cons.inj ends).2).2
  · exact (List.cons.inj ends).2

theorem keyed {f : String × α} (value : Determines write f.2) : Determines (keyed write) f := by
  intro g r s hr hs h
  obtain ⟨key, h⟩ := (determines_quoted f.1).before (by decide) h
  obtain ⟨value, rest⟩ := value hr hs (List.cons.inj h).2
  exact ⟨Prod.ext key value, rest⟩

theorem table {fs : List (String × α)} (each : ∀ f ∈ fs, Determines write f.2) :
    Determines (table write) fs := by
  intro gs r s _ _ h
  have opens := opens_keyed write
  obtain ⟨rfl, ends⟩ := entries_inj (fun f hf => (each f hf).keyed) (.inl rfl)
    (opens.ends (by decide) r) (opens.ends (by decide) s) (List.cons.inj h).2
  exact ⟨rfl, (List.cons.inj ends).2⟩

end Determines

end SchemaDrift.Writer
