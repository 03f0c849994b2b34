import SchemaDrift.Proofs.Json.Numerals

/-!
# JSON texts are read back

A value in whose objects no key is repeated is read back from its text, if its numbers are.

* `Json.Written` says this of the object or the number itself.
* `Json.readValue_spell` is the statement for a value in front of anything that may follow it, and
  `Json.ofText_toText` for a whole text.
* `Json.printable_spell`: JSON texts are printable ASCII, so they stay on one line.
-/

namespace SchemaDrift

namespace Json

/-- What is lost in no text: an object without repeated keys, a number that is read back, and
everything else. -/
def Written : Json → Prop
  | .num n => ReadsBack n
  | .obj fs => (Fields.keys fs).Nodup
  | _ => True

/-! ## Reading values -/

/-- A value starts with a visible character that closes no array. -/
theorem wire_lead (x : Json) (rest : List Char) :
    ∃ c cs, spell wire x rest = c :: cs ∧ Visible c ∧ c ≠ ']' := by
  cases x with
  | null => exact ⟨'n', _, rfl, by decide⟩
  | bool b => cases b <;> exact ⟨_, _, rfl, by decide⟩
  | num n =>
    obtain ⟨c, cs, text, start⟩ := number_lead n
    refine ⟨c, cs ++ rest, ?_, visible_number n c (text ▸ List.mem_cons_self), start.ne (by decide)⟩
    rw [spell, text]
    rfl
  | str s => exact ⟨'\x22', _, rfl, by decide⟩
  | arr xs => exact ⟨'[', _, rfl, by decide⟩
  | obj fs => exact ⟨'{', _, rfl, by decide⟩

theorem skipBlanks_wire (x : Json) (rest : List Char) :
    skipBlanks (spell wire x rest) = spell wire x rest := by
  obtain ⟨c, cs, text, visible, -⟩ := wire_lead x rest
  rw [text, skipBlanks_visible visible]

section

variable {fuel : Nat} {rest : List Char}

theorem readValue_null : readValue (fuel + 1) (spell wire .null rest) = .ok (.null, rest) := rfl

theorem readValue_bool (b : Bool) :
    readValue (fuel + 1) (spell wire (.bool b) rest) = .ok (.bool b, rest) := by
  cases b <;> rfl

theorem readValue_num {n : Number} (back : ReadsBack n) (follows : FollowsValue rest) :
    readValue (fuel + 1) (spell wire (.num n) rest) = .ok (.num n, rest) := by
  obtain ⟨c, cs, text, start⟩ := number_lead n
  rw [spell, ← back.append follows, text, List.cons_append, readValue_number start]

theorem spell_str (s : String) (rest : List Char) :
    spell wire (.str s) rest = '\x22' :: (s.toList.flatMap escapedChar ++ '\x22' :: rest) := by
  simp [spell, wire, stringText]

theorem readValue_str (s : String) :
    readValue (fuel + 1) (spell wire (.str s) rest) = .ok (.str s, rest) := by
  rw [spell_str, readValue, if_pos rfl, readString_stringText, String.ofList_toList]

theorem readValue_arr {x : Json} {xs : List Json}
    (read : readItems fuel (spellItems wire [] (x :: xs) (']' :: rest)) = .ok (x :: xs, rest)) :
    readValue (fuel + 1) (spell wire (.arr (x :: xs)) rest) = .ok (.arr (x :: xs), rest) := by
  obtain ⟨c, cs, text, visible, other⟩ := wire_lead x (spellItems wire [',', ' '] xs (']' :: rest))
  have items : spellItems wire [] (x :: xs) (']' :: rest) = c :: cs := text
  rw [items] at read
  rw [spell, items, readValue, if_neg (by decide), if_pos rfl, skipBlanks_visible visible]
  split
  · next same => exact absurd (List.cons.inj same).1 other
  · rw [read]

theorem readValue_obj {f : String × Json} {fs : List (String × Json)}
    (read : readFields fuel [] (spellFields wire [] (f :: fs) ('}' :: rest)) =
      .ok (f :: fs, rest)) :
    readValue (fuel + 1) (spell wire (.obj (f :: fs)) rest) = .ok (.obj (f :: fs), rest) := by
  have fields : ∃ cs, spellFields wire [] (f :: fs) ('}' :: rest) = '\x22' :: cs := ⟨_, rfl⟩
  obtain ⟨cs, fields⟩ := fields
  rw [fields] at read
  rw [spell, fields, readValue, if_neg (by decide), if_neg (by decide), if_pos rfl,
    skipBlanks_visible (by decide)]
  split
  · next same => exact absurd (List.cons.inj same).1 (by decide)
  · rw [read]

theorem readItems_last {x : Json} {cs : List Char}
    (read : readValue fuel cs = .ok (x, ']' :: rest)) :
    readItems (fuel + 1) cs = .ok ([x], rest) := by
  rw [readItems, read]
  rfl

theorem readItems_more {x : Json} {xs : List Json} {cs more : List Char}
    (read : readValue fuel cs = .ok (x, ',' :: ' ' :: more))
    (others : readItems fuel (skipBlanks more) = .ok (xs, rest)) :
    readItems (fuel + 1) cs = .ok (x :: xs, rest) := by
  have blank : skipBlanks (' ' :: more) = skipBlanks more := rfl
  rw [readItems, read]
  dsimp only
  rw [skipBlanks_visible (by decide)]
  simp only [blank, others]

/-- Behind its key and its value a field is put to those that were read before, and the closing
brace or another field comes next. -/
theorem readFields_field {key : String} {x : Json} {earlier : List (String × Json)}
    {cs more after : List Char} {result : Except TextFault (List (String × Json) × List Char)}
    (value : skipBlanks cs = cs) (read : readValue fuel cs = .ok (x, more))
    (goesOn : (more = '}' :: after ∧ .ok (Fields.put key x earlier, after) = result) ∨
      (more = ',' :: ' ' :: after ∧ skipBlanks after = after ∧
        readFields fuel (Fields.put key x earlier) after = result)) :
    readFields (fuel + 1) earlier (stringText key.toList ++ ':' :: ' ' :: cs) = result := by
  have text : stringText key.toList ++ ':' :: ' ' :: cs =
      '\x22' :: (key.toList.flatMap escapedChar ++ '\x22' :: ':' :: ' ' :: cs) := by
    simp [stringText]
  have blank : skipBlanks (' ' :: cs) = cs := value
  rw [text, readFields, readString_stringText, String.ofList_toList]
  dsimp only
  rw [skipBlanks_visible (by decide)]
  simp only [blank, read]
  obtain ⟨rfl, rfl⟩ | ⟨rfl, field, rfl⟩ := goesOn
  · rfl
  · have comma : skipBlanks (' ' :: after) = after := field
    rw [skipBlanks_visible (by decide)]
    simp only [comma]

end

/-! ### Reading uses up less than two steps a character -/

mutual

theorem length_spell_lt : ∀ (x : Json) (rest : List Char),
    rest.length < (spell wire x rest).length
  | .null, rest => by
    have text : (spell wire .null rest).length = rest.length + 4 := rfl
    omega
  | .bool b, rest => by
    have yes : (spell wire (.bool true) rest).length = rest.length + 4 := rfl
    have no : (spell wire (.bool false) rest).length = rest.length + 5 := rfl
    cases b <;> omega
  | .num n, rest => by
    obtain ⟨c, cs, text, -⟩ := number_lead n
    rw [spell, text, List.length_append, List.length_cons]
    omega
  | .str s, rest => by
    rw [spell_str]
    simp only [List.length_cons, List.length_append]
    omega
  | .arr xs, rest => by
    have items := length_spellItems_le [] xs (']' :: rest)
    rw [List.length_cons] at items
    rw [spell, List.length_cons]
    omega
  | .obj fs, rest => by
    have fields := length_spellFields_le [] fs ('}' :: rest)
    rw [List.length_cons] at fields
    rw [spell, List.length_cons]
    omega

theorem length_spellItems_le (lead : List Char) : ∀ (xs : List Json) (rest : List Char),
    rest.length ≤ (spellItems wire lead xs rest).length
  | [], rest => le_rfl
  | x :: xs, rest => by
    have others := length_spellItems_le [',', ' '] xs rest
    have first := length_spell_lt x (spellItems wire [',', ' '] xs rest)
    rw [spellItems, List.length_append]
    omega

theorem length_spellFields_le (lead : List Char) : ∀ (fs : List (String × Json)) (rest : List Char),
    rest.length ≤ (spellFields wire lead fs rest).length
  | [], rest => le_rfl
  | (key, x) :: fs, rest => by
    have others := length_spellFields_le [',', ' '] fs rest
    have first := length_spell_lt x (spellFields wire [',', ' '] fs rest)
    rw [spellFields]
    simp only [List.length_append, List.length_cons]
    omega

end

/-- There is fuel for one more step. The bound counts only what is read, so what is left unread
stands on both of its sides. -/
theorem fuel_succ {unread text fuel : Nat} (longer : unread < text)
    (enough : 2 * text ≤ fuel + 2 * unread) : ∃ f, fuel = f + 1 := ⟨fuel - 1, by omega⟩

mutual

/-- A value is read back in front of anything that may follow it, by recursion on the value. -/
theorem readValue_spell : ∀ (x : Json) {fuel : Nat} {rest : List Char}, x.Throughout Written →
    FollowsValue rest → 2 * (spell wire x rest).length ≤ fuel + 2 * rest.length →
      readValue fuel (spell wire x rest) = .ok (x, rest)
  | .null, fuel, rest, _, _, enough => by
    obtain ⟨fuel, rfl⟩ := fuel_succ (length_spell_lt .null rest) enough
    exact readValue_null
  | .bool b, fuel, rest, _, _, enough => by
    obtain ⟨fuel, rfl⟩ := fuel_succ (length_spell_lt (.bool b) rest) enough
    exact readValue_bool b
  | .num n, fuel, rest, written, follows, enough => by
    obtain ⟨fuel, rfl⟩ := fuel_succ (length_spell_lt (.num n) rest) enough
    exact readValue_num written.here follows
  | .str s, fuel, rest, _, _, enough => by
    obtain ⟨fuel, rfl⟩ := fuel_succ (length_spell_lt (.str s) rest) enough
    exact readValue_str s
  | .arr xs, fuel, rest, written, _, enough => by
    obtain ⟨fuel, rfl⟩ := fuel_succ (length_spell_lt (.arr xs) rest) enough
    cases xs with
    | nil => rfl
    | cons x xs =>
      refine readValue_arr (readItems_spell (x :: xs) (List.cons_ne_nil x xs)
        (throughout_arr.mp written).2 ?_)
      rw [spell, List.length_cons] at enough
      omega
  | .obj fs, fuel, rest, written, _, enough => by
    obtain ⟨fuel, rfl⟩ := fuel_succ (length_spell_lt (.obj fs) rest) enough
    cases fs with
    | nil => rfl
    | cons f fs =>
      obtain ⟨distinct, values⟩ := throughout_obj.mp written
      have filled := List.cons_ne_nil f fs
      refine readValue_obj (readFields_spell (f :: fs) filled [] distinct values ?_)
      rw [spell, List.length_cons] at enough
      omega

/-- Items are read back up to the closing bracket. -/
theorem readItems_spell : ∀ (xs : List Json) {fuel : Nat} {rest : List Char}, xs ≠ [] →
    (∀ x ∈ xs, x.Throughout Written) →
    2 * (spellItems wire [] xs (']' :: rest)).length ≤ fuel + 2 * rest.length →
      readItems fuel (spellItems wire [] xs (']' :: rest)) = .ok (xs, rest)
  | [], _, _, filled, _, _ => absurd rfl filled
  | x :: xs, fuel, rest, _, written, enough => by
    obtain ⟨first, others⟩ := List.forall_mem_cons.mp written
    have text : spellItems wire [] (x :: xs) (']' :: rest) =
      spell wire x (spellItems wire [',', ' '] xs (']' :: rest)) := rfl
    have longer := length_spell_lt x (spellItems wire [',', ' '] xs (']' :: rest))
    have behind := length_spellItems_le [',', ' '] xs (']' :: rest)
    rw [List.length_cons] at behind
    rw [text] at enough ⊢
    obtain ⟨fuel, rfl⟩ := fuel_succ (by omega) enough
    have read : readValue fuel (spell wire x (spellItems wire [',', ' '] xs (']' :: rest))) =
        .ok (x, spellItems wire [',', ' '] xs (']' :: rest)) :=
      readValue_spell x first (followsValue_items xs rest) (by omega)
    cases xs with
    | nil => exact readItems_last read
    | cons y ys =>
      have comma : (spellItems wire [',', ' '] (y :: ys) (']' :: rest)).length =
        (spellItems wire [] (y :: ys) (']' :: rest)).length + 2 := rfl
      refine readItems_more read ((congrArg _ (skipBlanks_wire y _)).trans ?_)
      exact readItems_spell (y :: ys) (List.cons_ne_nil y ys) others (by omega)

/-- Fields are read back up to the closing brace, behind those that were read before. -/
theorem readFields_spell : ∀ (fs : List (String × Json)) {fuel : Nat} {rest : List Char}, fs ≠ [] →
    ∀ (earlier : List (String × Json)), (Fields.keys (earlier ++ fs)).Nodup →
    (∀ f ∈ fs, f.2.Throughout Written) →
    2 * (spellFields wire [] fs ('}' :: rest)).length ≤ fuel + 2 * rest.length →
      readFields fuel earlier (spellFields wire [] fs ('}' :: rest)) = .ok (earlier ++ fs, rest)
  | [], _, _, filled, _, _, _, _ => absurd rfl filled
  | (key, x) :: fs, fuel, rest, _, earlier, distinct, written, enough => by
    obtain ⟨first, others⟩ := List.forall_mem_cons.mp written
    have longer := length_spell_lt x (spellFields wire [',', ' '] fs ('}' :: rest))
    have behind := length_spellFields_le [',', ' '] fs ('}' :: rest)
    rw [List.length_cons] at behind
    have text : spellFields wire [] ((key, x) :: fs) ('}' :: rest) = stringText key.toList ++
      ':' :: ' ' :: spell wire x (spellFields wire [',', ' '] fs ('}' :: rest)) := rfl
    rw [text, List.length_append, List.length_cons, List.length_cons] at enough
    rw [text]
    obtain ⟨fuel, rfl⟩ := fuel_succ (by omega) enough
    have read : readValue fuel (spell wire x (spellFields wire [',', ' '] fs ('}' :: rest))) =
        .ok (x, spellFields wire [',', ' '] fs ('}' :: rest)) :=
      readValue_spell x first (followsValue_fields fs rest) (by omega)
    have moved : earlier ++ (key, x) :: fs = earlier ++ [(key, x)] ++ fs := by simp
    have put := Fields.put_of_notMem (Fields.notMem_of_nodup distinct) x
    have value := skipBlanks_wire x (spellFields wire [',', ' '] fs ('}' :: rest))
    cases fs with
    | nil => exact readFields_field value read (.inl ⟨rfl, by rw [put]⟩)
    | cons f fs =>
      have comma : (spellFields wire [',', ' '] (f :: fs) ('}' :: rest)).length =
        (spellFields wire [] (f :: fs) ('}' :: rest)).length + 2 := rfl
      have lead : skipBlanks (spellFields wire [] (f :: fs) ('}' :: rest)) =
        spellFields wire [] (f :: fs) ('}' :: rest) := skipBlanks_visible (by decide) _
      rw [moved] at distinct ⊢
      have tail : readFields fuel (earlier ++ [(key, x)])
          (spellFields wire [] (f :: fs) ('}' :: rest)) =
            .ok (earlier ++ [(key, x)] ++ f :: fs, rest) :=
        readFields_spell (f :: fs) (List.cons_ne_nil f fs) _ distinct others (by omega)
      exact readFields_field value read (.inr ⟨rfl, lead, by rw [put]; exact tail⟩)

end

/-- A value is read back from its text. -/
theorem ofText_toText {x : Json} (written : x.Throughout Written) : ofText x.toText = .ok x := by
  have nothing : FollowsValue [] := fun _ h => nomatch h
  have read : readValue (2 * (spell wire x []).length + 2) (spell wire x []) = .ok (x, []) :=
    readValue_spell x written nothing (by simp)
  rw [ofText, toText, inSpelling, String.toList_ofList, ofChars, skipBlanks_wire, read]
  rfl

/-! ## Texts are printable -/

def Printable (c : Char) : Prop := ' ' ≤ c ∧ c ≤ '~'

instance : DecidablePred Printable := fun c => inferInstanceAs (Decidable (' ' ≤ c ∧ c ≤ '~'))

theorem Visible.printable {c : Char} (h : Visible c) : Printable c := ⟨h.1.le, h.2⟩

theorem printable_hexDigit {n : Nat} (h : n < 16) : Printable (Text.hexDigit n) := by
  have all : ∀ k : Fin 16, Printable (Text.hexDigit k) := by decide
  exact all ⟨n, h⟩

theorem printable_unitEscape (n : Nat) : ∀ c ∈ unitEscape n, Printable c := by
  have digit (k : Nat) : Printable (Text.hexDigit (k % 16)) :=
    printable_hexDigit (Nat.mod_lt _ (by decide))
  have text : unitEscape n =
      ['\\', 'u', Text.hexDigit (n / 16 / 16 / 16 % 16), Text.hexDigit (n / 16 / 16 % 16),
        Text.hexDigit (n / 16 % 16), Text.hexDigit (n % 16)] := rfl
  rw [text]
  simp only [List.forall_mem_cons]
  exact ⟨by decide, by decide, digit _, digit _, digit _, digit _, List.forall_mem_nil _⟩

/-- Whatever the character, its escape is printable. -/
theorem printable_escapedChar (c : Char) : ∀ d ∈ escapedChar c, Printable d := by
  have short (d : Char) (h : Printable d) : ∀ e ∈ ['\\', d], Printable e := by
    simp only [List.forall_mem_cons]
    exact ⟨by decide, h, List.forall_mem_nil _⟩
  unfold escapedChar
  split
  · next h => exact short c (by rcases h with rfl | rfl <;> decide)
  split
  · exact short 'n' (by decide)
  split
  · exact short 'r' (by decide)
  split
  · exact short 't' (by decide)
  split
  · exact short 'f' (by decide)
  split
  · exact short 'b' (by decide)
  split
  · next printable => exact List.forall_mem_singleton.mpr printable
  split
  · exact printable_unitEscape _
  · exact List.forall_mem_append.mpr ⟨printable_unitEscape _, printable_unitEscape _⟩

theorem printable_stringText (cs : List Char) : ∀ d ∈ stringText cs, Printable d := by
  have quote : Printable '\x22' := by decide
  simp only [stringText, List.forall_mem_cons, List.forall_mem_append]
  refine ⟨quote, fun d h => ?_, quote, List.forall_mem_nil _⟩
  obtain ⟨c, -, inside⟩ := List.mem_flatMap.mp h
  exact printable_escapedChar c d inside

mutual

/-- The text of a value adds printable characters only. -/
theorem printable_spell : ∀ (x : Json) {rest : List Char}, (∀ c ∈ rest, Printable c) →
    ∀ c ∈ spell wire x rest, Printable c
  | .null, rest, h => List.forall_mem_append.mpr ⟨forall_of_all (by decide), h⟩
  | .bool false, rest, h =>
    have word : ∀ c ∈ wire.no, Printable c := forall_of_all (by decide)
    List.forall_mem_append.mpr ⟨word, h⟩
  | .bool true, rest, h =>
    have word : ∀ c ∈ wire.yes, Printable c := forall_of_all (by decide)
    List.forall_mem_append.mpr ⟨word, h⟩
  | .num n, rest, h =>
    List.forall_mem_append.mpr ⟨fun c hc => (visible_number n c hc).printable, h⟩
  | .str s, rest, h => List.forall_mem_append.mpr ⟨printable_stringText s.toList, h⟩
  | .arr xs, rest, h => by
    have close : ∀ c ∈ ']' :: rest, Printable c := List.forall_mem_cons.mpr ⟨by decide, h⟩
    exact List.forall_mem_cons.mpr
      ⟨by decide, printable_spellItems xs (List.forall_mem_nil _) close⟩
  | .obj fs, rest, h => by
    have close : ∀ c ∈ '}' :: rest, Printable c := List.forall_mem_cons.mpr ⟨by decide, h⟩
    exact List.forall_mem_cons.mpr
      ⟨by decide, printable_spellFields fs (List.forall_mem_nil _) close⟩

theorem printable_spellItems : ∀ (xs : List Json) {lead rest : List Char},
    (∀ c ∈ lead, Printable c) → (∀ c ∈ rest, Printable c) →
      ∀ c ∈ spellItems wire lead xs rest, Printable c
  | [], _, _, _, h => h
  | x :: xs, _, _, first, h => by
    have comma : ∀ c ∈ [',', ' '], Printable c := forall_of_all (by decide)
    exact List.forall_mem_append.mpr ⟨first, printable_spell x (printable_spellItems xs comma h)⟩

theorem printable_spellFields : ∀ (fs : List (String × Json)) {lead rest : List Char},
    (∀ c ∈ lead, Printable c) → (∀ c ∈ rest, Printable c) →
      ∀ c ∈ spellFields wire lead fs rest, Printable c
  | [], _, _, _, h => h
  | (key, x) :: fs, _, _, first, h => by
    have comma : ∀ c ∈ [',', ' '], Printable c := forall_of_all (by decide)
    have value := printable_spell x (printable_spellFields fs comma h)
    exact List.forall_mem_append.mpr
      ⟨List.forall_mem_append.mpr ⟨first, printable_stringText key.toList⟩,
        List.forall_mem_cons.mpr ⟨by decide, List.forall_mem_cons.mpr ⟨by decide, value⟩⟩⟩

end

end Json

end SchemaDrift
