import Mathlib
import SchemaDrift.Fields
import SchemaDrift.Names
import SchemaDrift.Proofs.Related

/-!
# Fields and their names

* `Fields.mem_of_lookup` and `Fields.lookup_of_mem`: where no name is repeated, a name leads to a
  value exactly if the two stand together.
* `Fields.lookup_perm`: then the order of the fields does not matter to a look-up, and by
  `Fields.split_iff` it is the order of their names.
* `Fields.lookup_putAll`: a name that was set leads to the new value, any other to the old one;
  `Fields.putAll_eq_self_iff` says when setting names changes nothing.
* `Names.ofList_eq`: sets of names with the same members are the same list.
* `Fields.Aligned` relates tables with the same names in the same order, `Fields.Tally` tables with
  the same names in any order.
-/

namespace SchemaDrift

/-! ## Sets of names -/

namespace Names

theorem ascending_insert {ns : List String} (h : ns.Pairwise (· < ·)) (name : String) :
    (insert name ns).Pairwise (· < ·) := by
  induction ns with
  | nil => exact List.pairwise_singleton _ name
  | cons n ns ih =>
    obtain ⟨first, rest⟩ := List.pairwise_cons.mp h
    unfold insert
    split
    · next before =>
      refine List.pairwise_cons.mpr ⟨fun m hm => ?_, h⟩
      rcases List.mem_cons.mp hm with rfl | hm
      · exact before
      · exact lt_trans before (first m hm)
    · next notBefore =>
      split
      · exact h
      · next different =>
        have after : n < name := lt_of_le_of_ne (not_lt.mp notBefore) (Ne.symm different)
        refine List.pairwise_cons.mpr ⟨fun m hm => ?_, ih rest⟩
        rcases mem_insert.mp hm with rfl | hm
        · exact after
        · exact first m hm

theorem ascending_ofList (names : List String) : (ofList names).Pairwise (· < ·) := by
  induction names with
  | nil => exact .nil
  | cons n ns ih => exact ascending_insert ih n

/-- Sets of names with the same members are the same list. -/
theorem ofList_eq {names more : List String} (h : ∀ name, name ∈ names ↔ name ∈ more) :
    ofList names = ofList more :=
  (ascending_ofList names).eq_of_mem_iff (ascending_ofList more) fun name => by
    rw [mem_ofList, mem_ofList, h]

end Names

namespace Fields

variable {α β κ : Type}

/-! ## Look-ups -/

theorem mem_of_lookup [BEq κ] [LawfulBEq κ] {name : κ} {fields : List (κ × α)} {value : α}
    (h : fields.lookup name = some value) : (name, value) ∈ fields := by
  obtain ⟨before, after, split, -⟩ := List.lookup_eq_some_iff.mp h
  rw [split]
  exact List.mem_append_right before List.mem_cons_self

theorem lookup_cons (name : String) (f : String × α) (rest : List (String × α)) :
    (f :: rest).lookup name = if name = f.1 then some f.2 else rest.lookup name := by
  rw [List.lookup_cons]
  by_cases same : name = f.1
  · simp [same]
  · simp [same, beq_false_of_ne same]

theorem lookup_isSome_iff {name : String} {fields : List (String × α)} :
    (fields.lookup name).isSome ↔ name ∈ keys fields := by
  rw [List.lookup_isSome_iff, keys, List.mem_map]
  exact ⟨fun ⟨f, hf, same⟩ => ⟨f, hf, (eq_of_beq same).symm⟩,
    fun ⟨f, hf, same⟩ => ⟨f, hf, by rw [same]; exact beq_self_eq_true name⟩⟩

theorem lookup_eq_none_iff {name : String} {fields : List (String × α)} :
    fields.lookup name = none ↔ name ∉ keys fields := by
  rw [← lookup_isSome_iff, Option.not_isSome_iff_eq_none]

theorem lookup_of_mem {name : String} {fields : List (String × α)} {value : α}
    (distinct : (keys fields).Nodup) (h : (name, value) ∈ fields) :
    fields.lookup name = some value := by
  induction fields with
  | nil => exact nomatch h
  | cons f rest ih =>
    obtain ⟨fresh, distinct⟩ := List.nodup_cons.mp distinct
    rw [lookup_cons]
    rcases List.mem_cons.mp h with rfl | h
    · exact if_pos rfl
    · have other : name ≠ f.1 := by
        rintro rfl
        exact fresh (List.mem_map_of_mem (f := (·.1)) h)
      rw [if_neg other]
      exact ih distinct h

/-- The order of fields does not matter to a look-up. -/
theorem lookup_perm {fields more : List (String × α)} (distinct : (keys fields).Nodup)
    (h : fields.Perm more) (name : String) : fields.lookup name = more.lookup name := by
  have names : (keys fields).Perm (keys more) := h.map Prod.fst
  rcases first : fields.lookup name with _ | value
  · rcases second : more.lookup name with _ | value
    · rfl
    · have found := lookup_of_mem distinct (h.mem_iff.mpr (mem_of_lookup second))
      rw [first] at found
      exact nomatch found
  · exact (lookup_of_mem (names.nodup_iff.mp distinct) (h.mem_iff.mp (mem_of_lookup first))).symm

/-- Where no name is repeated, a field stands before others exactly if its name stands before
theirs. -/
theorem split_iff {fields : List (String × α)} (distinct : (keys fields).Nodup)
    (P : String → α → Prop) (name : String) (value : α) :
    (∃ before after, fields = before ++ (name, value) :: after ∧
        ∀ later v, (later, v) ∈ after → P later v) ↔
      ∃ before after, keys fields = before ++ name :: after ∧ fields.lookup name = some value ∧
        ∀ later ∈ after, ∀ v, fields.lookup later = some v → P later v := by
  constructor
  · rintro ⟨before, after, rfl, holds⟩
    have found {f : String × α} (hf : f ∈ (name, value) :: after) :
        (before ++ (name, value) :: after).lookup f.1 = some f.2 :=
      lookup_of_mem distinct (List.mem_append_right before hf)
    refine ⟨keys before, keys after, List.map_append, found List.mem_cons_self,
      fun later hlater v hv => ?_⟩
    obtain ⟨f, hf, rfl⟩ := List.mem_map.mp hlater
    obtain rfl := Option.some.inj ((found (List.mem_cons_of_mem _ hf)).symm.trans hv)
    exact holds f.1 f.2 hf
  · rintro ⟨_, _, split, hvalue, holds⟩
    obtain ⟨before, rest, rfl, rfl, hrest⟩ := List.map_eq_append_iff.mp split
    obtain ⟨f, after, rfl, rfl, rfl⟩ := List.map_eq_cons_iff.mp hrest
    have found {g : String × α} (hg : g ∈ f :: after) :
        (before ++ f :: after).lookup g.1 = some g.2 :=
      lookup_of_mem distinct (List.mem_append_right before hg)
    obtain rfl := Option.some.inj ((found List.mem_cons_self).symm.trans hvalue)
    exact ⟨before, after, rfl, fun later v hv =>
      holds later (List.mem_map_of_mem (f := (·.1)) hv) v (found (List.mem_cons_of_mem _ hv))⟩

theorem lookup_put (name other : String) (value : α) (fields : List (String × α)) :
    (put name value fields).lookup other =
      if other = name then some value else fields.lookup other := by
  split
  · next same =>
    subst same
    exact lookup_put_self _ value fields
  · next different => exact lookup_put_of_ne different value fields

theorem mem_put {name : String} {value : α} {fields : List (String × α)} {f : String × α}
    (h : f ∈ put name value fields) : f = (name, value) ∨ f ∈ fields := by
  induction fields with
  | nil => exact .inl (List.mem_singleton.mp h)
  | cons g rest ih =>
    unfold put at h
    split at h
    · next same =>
      rcases List.mem_cons.mp h with rfl | h
      · exact .inl (by rw [← same])
      · exact .inr (List.mem_cons_of_mem g h)
    · rcases List.mem_cons.mp h with rfl | h
      · exact .inr List.mem_cons_self
      · exact (ih h).imp_right (List.mem_cons_of_mem g)

theorem mem_putAll {more fields : List (String × α)} {f : String × α}
    (h : f ∈ putAll fields more) : f ∈ more ∨ f ∈ fields := by
  induction more generalizing fields with
  | nil => exact .inr h
  | cons g rest ih =>
    have h : f ∈ putAll (put g.1 g.2 fields) rest := h
    rcases ih h with h | h
    · exact .inl (List.mem_cons_of_mem g h)
    · rcases mem_put h with rfl | h
      · exact .inl List.mem_cons_self
      · exact .inr h

/-- Fields that were set hide those of the same names. -/
theorem lookup_putAll {more : List (String × α)} (distinct : (keys more).Nodup)
    (fields : List (String × α)) (name : String) :
    (putAll fields more).lookup name = (more.lookup name).or (fields.lookup name) := by
  induction more generalizing fields with
  | nil => rfl
  | cons f rest ih =>
    obtain ⟨fresh, distinct⟩ := List.nodup_cons.mp distinct
    show (putAll (put f.1 f.2 fields) rest).lookup name = _
    rw [ih distinct, lookup_put, lookup_cons]
    split
    · next same =>
      have absent : rest.lookup name = none := lookup_eq_none_iff.mpr (same ▸ fresh)
      rw [absent]
      rfl
    · rfl

/-- Fields among which no name is found are none. -/
theorem eq_nil_of_lookup {fields : List (String × α)} (h : ∀ name, ¬(fields.lookup name).isSome) :
    fields = [] := by
  rcases fields with _ | ⟨f, rest⟩
  · rfl
  · exact absurd (lookup_isSome_iff.mpr List.mem_cons_self) (h f.1)

/-- A new name is set at the end. -/
theorem put_of_notMem {name : String} {fields : List (String × α)} (h : name ∉ keys fields)
    (value : α) : put name value fields = fields ++ [(name, value)] := by
  induction fields with
  | nil => rfl
  | cons f rest ih =>
    have other : f.1 ≠ name := fun same => h (same ▸ List.mem_cons_self)
    have later : name ∉ keys rest := fun hmem => h (List.mem_cons_of_mem f.1 hmem)
    rw [put, if_neg other, ih later]
    rfl

/-- Without repeated names a name is new behind the fields in front of it. -/
theorem notMem_of_nodup {fields rest : List (String × α)} {f : String × α}
    (h : (keys (fields ++ f :: rest)).Nodup) : f.1 ∉ keys fields := by
  unfold keys at h
  rw [List.map_append] at h
  exact fun hmem => (List.nodup_append.mp h).2.2 _ hmem _ List.mem_cons_self rfl

/-- Fields with new names are set one behind the other. -/
theorem putAll_of_nodup {fields more : List (String × α)} (h : (keys (fields ++ more)).Nodup) :
    putAll fields more = fields ++ more := by
  induction more generalizing fields with
  | nil => exact (List.append_nil fields).symm
  | cons f rest ih =>
    have moved : fields ++ [f] ++ rest = fields ++ f :: rest := List.append_assoc ..
    show putAll (put f.1 f.2 fields) rest = _
    rw [put_of_notMem (notMem_of_nodup h), ih (by rw [moved]; exact h), moved]

/-- Setting a name to what it leads to already changes nothing. -/
theorem put_eq_self {name : String} {value : α} {fields : List (String × α)}
    (h : fields.lookup name = some value) : put name value fields = fields := by
  induction fields with
  | nil => exact nomatch h
  | cons f rest ih =>
    rw [lookup_cons] at h
    unfold put
    split
    · next same =>
      rw [if_pos same.symm] at h
      rw [← Option.some.inj h]
    · next other =>
      rw [if_neg (Ne.symm other)] at h
      rw [ih h]

/-- Setting names changes nothing exactly if each of them leads to its new value already. -/
theorem putAll_eq_self_iff {fields more : List (String × α)} (distinct : (keys more).Nodup) :
    putAll fields more = fields ↔
      ∀ name value, more.lookup name = some value → fields.lookup name = some value := by
  constructor
  · intro same name value found
    rw [← same, lookup_putAll distinct, found]
    rfl
  · intro settled
    induction more with
    | nil => rfl
    | cons f rest ih =>
      obtain ⟨fresh, distinct⟩ := List.nodup_cons.mp distinct
      have first : fields.lookup f.1 = some f.2 :=
        settled f.1 f.2 (by rw [lookup_cons, if_pos rfl])
      show putAll (put f.1 f.2 fields) rest = fields
      rw [put_eq_self first]
      refine ih distinct fun name value found => settled name value ?_
      have other : name ≠ f.1 := by
        rintro rfl
        exact fresh (lookup_isSome_iff.mp (by rw [found]; rfl))
      rw [lookup_cons, if_neg other, found]

theorem keys_put (name : String) (value : α) (fields : List (String × α)) :
    keys (put name value fields) =
      if name ∈ keys fields then keys fields else keys fields ++ [name] := by
  split
  · next there =>
    induction fields with
    | nil => exact nomatch there
    | cons f rest ih =>
      unfold put
      split
      · rfl
      · next other =>
        have later : name ∈ keys rest := (List.mem_cons.mp there).resolve_left (Ne.symm other)
        exact congrArg (f.1 :: ·) (ih later)
  · next new =>
    rw [put_of_notMem new]
    exact List.map_append

/-- Names that are set follow those that were there already. -/
theorem keys_putAll {more : List (String × α)} (distinct : (keys more).Nodup)
    (fields : List (String × α)) :
    keys (putAll fields more) = keys fields ++ Names.without (keys more) (keys fields) := by
  induction more generalizing fields with
  | nil => exact (List.append_nil _).symm
  | cons f rest ih =>
    obtain ⟨fresh, distinct⟩ := List.nodup_cons.mp distinct
    have names : Names.without (keys (f :: rest)) (keys fields) =
        (if f.1 ∈ keys fields then [] else [f.1]) ++ Names.without (keys rest) (keys fields) := by
      show List.filter _ (f.1 :: keys rest) = _
      rw [List.filter_cons]
      split <;> split <;> simp_all [Names.without]
    show keys (putAll (put f.1 f.2 fields) rest) = _
    rw [ih distinct, names, keys_put]
    split
    · rfl
    · have later : Names.without (keys rest) (keys fields ++ [f.1]) =
          Names.without (keys rest) (keys fields) := by
        refine List.filter_congr fun name hname => ?_
        have other : name ≠ f.1 := by
          rintro rfl
          exact fresh hname
        simp [other]
      rw [later, List.append_assoc]

/-! ## Tables with the same names -/

/-- Two tables have the same names in the same order, and the values under each of them are
related. -/
abbrev Aligned (R : String → α → β → Prop) : List (String × α) → List (String × β) → Prop :=
  List.Forall₂ fun f g => f.1 = g.1 ∧ R f.1 f.2 g.2

namespace Aligned

variable {R : String → α → β → Prop} {fields : List (String × α)} {more : List (String × β)}

theorem keys_eq (h : Aligned R fields more) : keys fields = keys more := by
  induction h with
  | nil => rfl
  | cons first _ ih => exact congrArg₂ List.cons first.1 ih

/-- A table is related to one table only, if its values are each related to one value. -/
theorem unique {S : String → α → β → Prop} {other : List (String × β)}
    (h : ∀ name x y z, (name, x) ∈ fields → (name, y) ∈ more → (name, z) ∈ other →
      R name x y → S name x z → y = z) (first : Aligned R fields more)
    (second : Aligned S fields other) : more = other := by
  refine forall₂_unique ?_ first second
  rintro ⟨name, x⟩ hx ⟨_, y⟩ hy ⟨_, z⟩ hz ⟨rfl, hxy⟩ ⟨rfl, hxz⟩
  rw [h name x y z hx hy hz hxy hxz]

theorem lookup (h : Aligned R fields more) (name : String) :
    Option.Rel (R name) (fields.lookup name) (more.lookup name) := by
  induction h with
  | nil => exact .none
  | cons first _ ih =>
    rw [lookup_cons, lookup_cons, ← first.1]
    split
    · next same =>
      subst same
      exact .some first.2
    · exact ih

theorem put {S : α → β → Prop} (h : Aligned (fun _ => S) fields more) (name : String) {x : α}
    {y : β} (hxy : S x y) :
    Aligned (fun _ => S) (put name x fields) (Fields.put name y more) := by
  induction h with
  | nil => exact .cons ⟨rfl, hxy⟩ .nil
  | cons first rest ih =>
    unfold Fields.put
    rw [first.1]
    split
    · exact .cons ⟨rfl, hxy⟩ rest
    · exact .cons ⟨rfl, first.2⟩ ih

theorem putAll {S : α → β → Prop} {added : List (String × α)} {added' : List (String × β)}
    (h : Aligned (fun _ => S) fields more) (hadded : Aligned (fun _ => S) added added') :
    Aligned (fun _ => S) (putAll fields added) (Fields.putAll more added') := by
  induction hadded generalizing fields more with
  | nil => exact h
  | @cons f g fs gs first _ ih =>
    show Aligned _ (Fields.putAll (Fields.put f.1 f.2 fields) fs)
      (Fields.putAll (Fields.put g.1 g.2 more) gs)
    rw [first.1]
    exact ih (h.put g.1 first.2)

end Aligned

/-! ## Tables with the same names in any order -/

theorem mem_keys_put {name other : String} {value : α} {fields : List (String × α)} :
    other ∈ keys (Fields.put name value fields) ↔ other = name ∨ other ∈ keys fields := by
  rw [← lookup_isSome_iff, ← lookup_isSome_iff, lookup_put]
  split
  · next same => simp [same]
  · next different => simp [different]

theorem nodup_put {fields : List (String × α)} (h : (keys fields).Nodup) (name : String)
    (value : α) : (keys (Fields.put name value fields)).Nodup := by
  induction fields with
  | nil => exact List.nodup_singleton name
  | cons f rest ih =>
    obtain ⟨fresh, distinct⟩ := List.nodup_cons.mp h
    unfold Fields.put
    split
    · exact h
    · next other =>
      refine List.nodup_cons.mpr ⟨fun found => ?_, ih distinct⟩
      rcases mem_keys_put.mp found with same | found
      · exact other same
      · exact fresh found

theorem nodup_putAll {more fields : List (String × α)} (h : (keys fields).Nodup) :
    (keys (Fields.putAll fields more)).Nodup := by
  induction more generalizing fields with
  | nil => exact h
  | cons f rest ih => exact ih (nodup_put h f.1 f.2)

/-- Two tables repeat no name, and under every name they have related values or none. -/
structure Tally (R : α → β → Prop) (fields : List (String × α)) (more : List (String × β)) :
    Prop where
  left : (keys fields).Nodup
  right : (keys more).Nodup
  lookup : ∀ name, Option.Rel R (fields.lookup name) (more.lookup name)

namespace Tally

variable {R : α → β → Prop} {fields : List (String × α)} {more : List (String × β)}

theorem nil : Tally R [] [] := ⟨.nil, .nil, fun _ => .none⟩

theorem mono {S : α → β → Prop} (h : Tally R fields more) (weaker : ∀ x y, R x y → S x y) :
    Tally S fields more :=
  { h with lookup := fun name => optionRel_mono (fun x y _ => weaker x y) (h.lookup name) }

theorem mem_keys (h : Tally R fields more) (name : String) :
    name ∈ keys fields ↔ name ∈ keys more := by
  rw [← lookup_isSome_iff, ← lookup_isSome_iff]
  have found := h.lookup name
  generalize fields.lookup name = x at found
  generalize more.lookup name = y at found
  cases found <;> simp

theorem putAll {added : List (String × α)} {added' : List (String × β)} (h : Tally R fields more)
    (hadded : Tally R added added') :
    Tally R (Fields.putAll fields added) (Fields.putAll more added') where
  left := nodup_putAll h.left
  right := nodup_putAll h.right
  lookup name := by
    rw [lookup_putAll hadded.left, lookup_putAll hadded.right]
    have first := hadded.lookup name
    generalize added.lookup name = x at first
    generalize added'.lookup name = y at first
    cases first with
    | some hxy => exact .some hxy
    | none => exact h.lookup name

end Tally

end Fields

end SchemaDrift
