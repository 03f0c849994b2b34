import SchemaDrift.Proofs.Schema.Lookup

/-!
# Chains of references end

A chain of references may come back to where it was. It is followed for as long as it meets new
references, and no others can be met than that of the schema it starts from and those of the
definitions.

* `References.Walks` is the walk along a chain without any bound on its length, `References.Leads`
  says where references lead that are followed one after the other.
* `References.walks_followFrom`: a walk of bounded length is the whole walk if the bound leaves room
  for all references that can be met.
* `References.Walks.again`: from the end of a walk a chain goes nowhere, or once round a cycle.
* `References.follow_ends` puts this together for the definitions of a root.
-/

namespace SchemaDrift.References

variable {refs : References}

/-! ## Walks -/

/-- The references that were looked up, the latest first. -/
def End.lookedUp (e : End) : List String := e.dangling.toList ++ e.trail

/-- No further reference can be followed: there is none, it repeats, or it leads nowhere. -/
inductive Stopped (refs : References) : End → Prop where
  | unreferring {trail : List String} {s : Schema} : s.reference = none →
    Stopped refs ⟨trail, s, none⟩
  | repeated {trail : List String} {s : Schema} {r : String} : s.reference = some r → r ∈ trail →
    Stopped refs ⟨trail, s, none⟩
  | dangling {trail : List String} {s : Schema} {r : String} : s.reference = some r → r ∉ trail →
    refs.find? r = none → Stopped refs ⟨trail, s, some r⟩

/-- The walk along a chain of references, for as long as they are not in the trail. -/
inductive Walks (refs : References) : List String → Schema → End → Prop where
  | stop {trail : List String} {s : Schema} {d : Option String} : Stopped refs ⟨trail, s, d⟩ →
    Walks refs trail s ⟨trail, s, d⟩
  | follow {trail : List String} {s t : Schema} {r : String} {e : End} : s.reference = some r →
    r ∉ trail → refs.find? r = some t → Walks refs (r :: trail) t e → Walks refs trail s e

/-- References that are followed one after the other lead from one schema to another one. -/
inductive Leads (refs : References) : Schema → List String → Schema → Prop where
  | here (s : Schema) : Leads refs s [] s
  | step {s t u : Schema} {r : String} {path : List String} : s.reference = some r →
    refs.find? r = some t → Leads refs t path u → Leads refs s (r :: path) u

/-! ## A walk comes to one end -/

theorem Stopped.reference {e : End} (h : Stopped refs e) :
    e.schema.reference = none ∨
      ∃ r, e.schema.reference = some r ∧ (refs.find? r = none ∨ r ∈ e.trail) := by
  cases h with
  | unreferring none => exact .inl none
  | repeated hr old => exact .inr ⟨_, hr, .inr old⟩
  | dangling hr _ absent => exact .inr ⟨_, hr, .inl absent⟩

/-- Where no reference can be followed, none is. -/
theorem Stopped.not_follow {trail : List String} {s t : Schema} {d : Option String} {r : String}
    (h : Stopped refs ⟨trail, s, d⟩) (hr : s.reference = some r) (new : r ∉ trail)
    (found : refs.find? r = some t) : False := by
  rcases h.reference with none | ⟨q, hq, stuck⟩
  · exact nomatch none.symm.trans hr
  · obtain rfl := Option.some.inj (hq.symm.trans hr)
    rcases stuck with absent | old
    · exact nomatch absent.symm.trans found
    · exact new old

/-- A reference that has not been met before is left at the end if it leads nowhere. -/
theorem Stopped.dangling_eq {e : End} (h : Stopped refs e) :
    e.dangling = e.schema.reference.filter fun r => !e.trail.contains r := by
  cases h with
  | unreferring none => simp [none]
  | repeated hr old => simp [hr, Option.filter, old]
  | dangling hr new _ => simp [hr, Option.filter, new]

theorem Walks.unique {trail : List String} {s : Schema} {e e' : End} (h : Walks refs trail s e)
    (h' : Walks refs trail s e') : e = e' := by
  induction h generalizing e' with
  | stop stopped =>
    cases h' with
    | stop stopped' =>
      exact congrArg (End.mk _ _) (stopped.dangling_eq.trans stopped'.dangling_eq.symm)
    | follow hr new found _ => exact (stopped.not_follow hr new found).elim
  | follow hr new found _ ih =>
    cases h' with
    | stop stopped' => exact (stopped'.not_follow hr new found).elim
    | follow hr' _ found' rest =>
      obtain rfl := Option.some.inj (hr.symm.trans hr')
      obtain rfl := Option.some.inj (found.symm.trans found')
      exact ih rest

/-! ## The room a walk takes -/

section

variable {names : List String}
  (met : ∀ r t q, refs.find? r = some t → t.reference = some q → q ∈ names)

include met

/-- A walk ends before it needs more room than there are references that it can meet. -/
theorem walks_followFrom {fuel : Nat} {trail : List String} {s : Schema}
    (start : ∀ q, s.reference = some q → q ∈ names) (distinct : trail.Nodup)
    (within : trail ⊆ names) (room : names.length ≤ fuel + trail.length) :
    Walks refs trail s (refs.followFrom fuel trail s) := by
  induction fuel generalizing trail s with
  | zero =>
    rcases hr : s.reference with _ | r
    · exact .stop (.unreferring hr)
    · -- Without room the trail has all names already.
      have all : trail.Perm names :=
        (List.subperm_of_subset distinct within).perm_of_length_le (by omega)
      exact .stop (.repeated hr (all.mem_iff.mpr (start r hr)))
  | succ fuel ih =>
    unfold followFrom
    split
    · next none => exact .stop (.unreferring none)
    · next r hr =>
      split
      · next old => exact .stop (.repeated hr (List.contains_iff_mem.mp old))
      · next new =>
        have new : r ∉ trail := fun old => new (List.contains_iff_mem.mpr old)
        split
        · next absent => exact .stop (.dangling hr new absent)
        · next t found =>
          refine .follow hr new found (ih (fun q hq => met r t q found hq)
            (List.nodup_cons.mpr ⟨new, distinct⟩)
            (List.cons_subset.mpr ⟨start r hr, within⟩) ?_)
          rw [List.length_cons]
          omega

/-- No reference is looked up twice, and only those that can be met. -/
theorem Walks.lookedUp {trail : List String} {s : Schema} {e : End} (h : Walks refs trail s e)
    (start : ∀ q, s.reference = some q → q ∈ names) (distinct : trail.Nodup)
    (within : trail ⊆ names) : e.lookedUp.Nodup ∧ e.lookedUp ⊆ names := by
  induction h with
  | stop stopped =>
    cases stopped with
    | unreferring _ => exact ⟨distinct, within⟩
    | repeated _ _ => exact ⟨distinct, within⟩
    | dangling hr new _ =>
      exact ⟨List.nodup_cons.mpr ⟨new, distinct⟩, List.cons_subset.mpr ⟨start _ hr, within⟩⟩
  | follow hr new found _ ih =>
    exact ih (fun q hq => met _ _ q found hq) (List.nodup_cons.mpr ⟨new, distinct⟩)
      (List.cons_subset.mpr ⟨start _ hr, within⟩)

end

/-! ## Where a walk ends -/

theorem Leads.split {s u : Schema} {path more : List String} (h : Leads refs s (path ++ more) u) :
    ∃ t, Leads refs s path t ∧ Leads refs t more u := by
  induction path generalizing s with
  | nil => exact ⟨s, .here s, h⟩
  | cons r path ih =>
    cases h with
    | step hr found rest =>
      obtain ⟨t, first, second⟩ := ih rest
      exact ⟨t, .step hr found first, second⟩

/-- Every schema on a chain but the first one is found under some reference. -/
theorem Leads.eq_or_found {s u : Schema} {path : List String} (h : Leads refs s path u) :
    u = s ∨ ∃ r, refs.find? r = some u := by
  induction h with
  | here s => exact .inl rfl
  | step _ found _ ih =>
    rcases ih with rfl | found'
    · exact .inr ⟨_, found⟩
    · exact .inr found'

/-- A walk adds the references to the trail that lead to its end. -/
theorem Walks.leads {trail : List String} {s : Schema} {e : End} (h : Walks refs trail s e) :
    Stopped refs e ∧ ∃ path, e.trail = path.reverse ++ trail ∧ Leads refs s path e.schema := by
  induction h with
  | stop stopped => exact ⟨stopped, [], rfl, .here _⟩
  | @follow trail s t r e hr _ found _ ih =>
    obtain ⟨stopped, path, htrail, leads⟩ := ih
    refine ⟨stopped, r :: path, ?_, .step hr found leads⟩
    rw [htrail, List.reverse_cons, List.append_assoc]
    rfl

/-- New references are walked along. -/
theorem Leads.walks {trail path : List String} {s t : Schema} {e : End}
    (h : Leads refs s path t) (distinct : (path.reverse ++ trail).Nodup)
    (rest : Walks refs (path.reverse ++ trail) t e) : Walks refs trail s e := by
  induction h generalizing trail with
  | here _ => exact rest
  | @step s t u r path hr found _ ih =>
    rw [List.reverse_cons, List.append_assoc] at distinct rest
    have new : r ∉ trail := (List.nodup_cons.mp (List.nodup_append.mp distinct).2.1).1
    exact .follow hr new found (ih distinct rest)

/-- From its end a walk goes nowhere, or once round a cycle. -/
theorem Walks.again {s : Schema} {e : End} (h : Walks refs [] s e) (distinct : e.trail.Nodup) :
    ∃ e', Walks refs [] e.schema e' ∧ e'.schema = e.schema := by
  obtain ⟨stopped, path, htrail, leads⟩ := h.leads
  cases stopped with
  | unreferring none => exact ⟨_, .stop (.unreferring none), rfl⟩
  | dangling hr _ absent => exact ⟨_, .stop (.dangling hr List.not_mem_nil absent), rfl⟩
  | @repeated trail u r hr old =>
    obtain ⟨later, earlier, rfl⟩ := List.append_of_mem old
    have whole : path = earlier.reverse ++ r :: later.reverse := by
      rw [List.append_nil] at htrail
      rw [← List.reverse_reverse path, ← htrail]
      simp
    rw [whole] at leads
    obtain ⟨_, -, round⟩ := leads.split
    cases round with
    | step _ found round =>
      have distinct : (later.reverse.reverse ++ [r]).Nodup := by
        rw [List.reverse_reverse]
        have first : [r].Sublist (r :: earlier) := List.singleton_sublist.mpr List.mem_cons_self
        exact distinct.sublist (first.append_left later)
      refine ⟨_, .follow hr List.not_mem_nil found (round.walks distinct (.stop (.repeated hr ?_))),
        rfl⟩
      simp

/-! ## Definitions of a root -/

/-- A spelling leads to one of the definitions. -/
theorem mem_of_find? {root : Schema} {r : String} {s : Schema}
    (found : (ofRoot root).find? r = some s) : ∃ name, (name, s) ∈ root.definitions := by
  obtain ⟨name, -, before, after, split, -⟩ := find?_eq_some_iff.mp found
  rw [split]
  exact ⟨name, List.mem_append_right before List.mem_cons_self⟩

/-- There are more spellings than definitions. -/
theorem length_definitions_le (root : Schema) :
    root.definitions.length ≤ (ofRoot root).table.length := by
  show _ ≤ (entered root.identifier root.definitions).reverse.length
  rw [List.length_reverse, entered]
  induction root.definitions with
  | nil => exact Nat.zero_le _
  | cons d rest ih =>
    have first : 1 ≤ (spellings root.identifier d.1 d.2).length :=
      List.length_pos_of_mem (mem_spellings_iff.mpr .defs)
    rw [List.flatMap_cons, List.length_append, List.length_map, List.length_cons]
    omega

/-- The references that a chain from a schema can meet. -/
def mentioned (root s : Schema) : List String :=
  s.reference.toList ++ root.definitions.filterMap (·.2.reference)

theorem length_mentioned_le (root s : Schema) :
    (mentioned root s).length ≤ root.definitions.length + 1 := by
  have own : s.reference.toList.length ≤ 1 := by cases s.reference <;> simp
  have others := List.length_filterMap_le (fun d => d.2.reference) root.definitions
  rw [mentioned, List.length_append]
  omega

theorem mem_mentioned_self {root s : Schema} {q : String} (hq : s.reference = some q) :
    q ∈ mentioned root s :=
  List.mem_append_left _ (Option.mem_toList.mpr hq)

theorem mem_mentioned_of_find? {root s : Schema} {r q : String} {t : Schema}
    (found : (ofRoot root).find? r = some t) (hq : t.reference = some q) :
    q ∈ mentioned root s := by
  obtain ⟨name, hmem⟩ := mem_of_find? found
  exact List.mem_append_right _ (List.mem_filterMap.mpr ⟨(name, t), hmem, hq⟩)

/-- With room for one reference more than there are definitions a walk is not cut short. -/
theorem walks_of_room {root s : Schema} {fuel : Nat} (room : root.definitions.length + 1 ≤ fuel) :
    Walks (ofRoot root) [] s ((ofRoot root).followFrom fuel [] s) :=
  walks_followFrom (fun _ _ _ => mem_mentioned_of_find?) (fun _ => mem_mentioned_self) .nil
    (List.nil_subset _) ((length_mentioned_le root s).trans room)

/-- A chain of references is followed to its end, which is the only one. At most one reference more
than there are definitions is looked up, and none of them twice. The end is the schema that the
chain starts from or one of the definitions; it has no reference, or one that leads nowhere or was
followed already. To follow the chain from there leads to the same schema. -/
theorem follow_ends (root s : Schema) : ∃ e, (ofRoot root).follow s = e ∧
    Walks (ofRoot root) [] s e ∧ (∀ e', Walks (ofRoot root) [] s e' → e' = e) ∧
    (∀ fuel, root.definitions.length + 1 ≤ fuel → (ofRoot root).followFrom fuel [] s = e) ∧
    e.lookedUp.Nodup ∧ e.lookedUp.length ≤ root.definitions.length + 1 ∧
    Leads (ofRoot root) s e.trail.reverse e.schema ∧
    (e.schema = s ∨ ∃ name, (name, e.schema) ∈ root.definitions) ∧
    (e.schema.reference = none ∨
      ∃ r, e.schema.reference = some r ∧ ((ofRoot root).find? r = none ∨ r ∈ e.trail)) ∧
    ((ofRoot root).follow e.schema).schema = e.schema := by
  have walked (s : Schema) : Walks (ofRoot root) [] s ((ofRoot root).follow s) :=
    walks_of_room (Nat.succ_le_succ (length_definitions_le root))
  refine ⟨_, rfl, walked s, fun e h => h.unique (walked s),
    fun fuel room => (walks_of_room room).unique (walked s), ?_⟩
  obtain ⟨distinct, within⟩ := (walked s).lookedUp (fun _ _ _ => mem_mentioned_of_find?)
    (fun _ => mem_mentioned_self) .nil (List.nil_subset _)
  have size := (List.subperm_of_subset distinct within).length_le
  obtain ⟨stopped, path, htrail, leads⟩ := (walked s).leads
  obtain ⟨e', again, same⟩ := (walked s).again (List.nodup_append.mp distinct).2.1
  refine ⟨distinct, size.trans (length_mentioned_le root s), ?_,
    leads.eq_or_found.imp_right fun ⟨_, found⟩ => mem_of_find? found, stopped.reference, ?_⟩
  · rw [htrail, List.append_nil, List.reverse_reverse]
    exact leads
  · obtain rfl := again.unique (walked _)
    exact same

/-- Two definitions that refer to each other. -/
def circle : Schema := { Schema.everything with
  definitions := [("A", { Schema.everything with reference := some "#/definitions/B" }),
    ("B", { Schema.everything with reference := some "#/$defs/A" })] }

example : ((ofRoot circle).follow
    { Schema.everything with reference := some "#/definitions/A" }).lookedUp =
      ["#/$defs/A", "#/definitions/B", "#/definitions/A"] := by decide

end SchemaDrift.References
