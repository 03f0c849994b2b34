import Mathlib.Data.List.Forall2
import Mathlib.Data.Option.Basic

/-!
# Related options and lists

* `optionRel_mono`, `optionRel_flip`, `optionRel_trans` and `rel_or` change a relation of options.
* `optionRel_congr` and `forall₂_congr` put related values for each other in a relation.
* `forall₂_trans` and `forall₂_flip` change a relation of lists.
* `optionRel_unique` and `forall₂_unique`: related values are unique if related items are.
* `exists_forall₂` and `exists_partners` find a related list item by item.
* `forall₂_zip` and `forall₂_getElem?` take related lists together and apart.
-/

namespace SchemaDrift

variable {α β γ δ : Type}

/-! ## Options -/

section

variable {R : α → β → Prop} {x : Option α} {y : Option β}

theorem rel_cases (h : Option.Rel R x y) :
    (x = none ∧ y = none) ∨ ∃ a b, x = some a ∧ y = some b ∧ R a b := by
  cases h with
  | some hab => exact .inr ⟨_, _, rfl, rfl, hab⟩
  | none => exact .inl ⟨rfl, rfl⟩

theorem rel_some_left (h : Option.Rel R x y) {a : α} (ha : x = some a) :
    ∃ b, y = some b ∧ R a b := by
  subst ha
  cases h with
  | some hab => exact ⟨_, rfl, hab⟩

theorem rel_some_right (h : Option.Rel R x y) {b : β} (hb : y = some b) :
    ∃ a, x = some a ∧ R a b := by
  subst hb
  cases h with
  | some hab => exact ⟨_, rfl, hab⟩

theorem forall_rel_iff {P : α → Prop} {Q : β → Prop} (h : Option.Rel R x y)
    (same : ∀ a b, R a b → (P a ↔ Q b)) : (∀ a, x = some a → P a) ↔ ∀ b, y = some b → Q b := by
  cases h with
  | some hab => simp [same _ _ hab]
  | none => exact ⟨nofun, nofun⟩

theorem isSome_rel (h : Option.Rel R x y) : x.isSome = y.isSome := by
  cases h <;> rfl

theorem isNone_rel (h : Option.Rel R x y) : x.isNone = y.isNone := by
  cases h <;> rfl

/-- Two options are related if both are there or neither, and what is there is related. -/
theorem optionRel_iff :
    Option.Rel R x y ↔ x.isSome = y.isSome ∧ ∀ a b, x = some a → y = some b → R a b := by
  refine ⟨fun h => ⟨isSome_rel h, fun a b ha hb => ?_⟩, fun ⟨present, h⟩ => ?_⟩
  · rw [ha, hb] at h
    cases h with
    | some hab => exact hab
  · rcases x with _ | a <;> rcases y with _ | b
    · exact .none
    · exact nomatch present
    · exact nomatch present
    · exact .some (h a b rfl rfl)

theorem rel_or {x' : Option α} {y' : Option β} (first : Option.Rel R x y)
    (second : Option.Rel R x' y') : Option.Rel R (x.or x') (y.or y') := by
  cases first with
  | some h => exact .some h
  | none => exact second

theorem rel_self {S : α → α → Prop} (h : Option.Rel S x x) {a : α} (ha : x = some a) : S a a := by
  rw [ha] at h
  cases h with
  | some haa => exact haa

theorem optionRel_mono {S : α → β → Prop} (h : ∀ a b, x = some a → R a b → S a b)
    (hxy : Option.Rel R x y) : Option.Rel S x y := by
  cases hxy with
  | some hab => exact .some (h _ _ rfl hab)
  | none => exact .none

theorem optionRel_flip {S : β → α → Prop} (h : ∀ a b, x = some a → y = some b → R a b → S b a)
    (hxy : Option.Rel R x y) : Option.Rel S y x := by
  cases hxy with
  | some hab => exact .some (h _ _ rfl rfl hab)
  | none => exact .none

end

theorem optionRel_trans {R : α → β → Prop} {S : β → γ → Prop} {T : α → γ → Prop} {x : Option α}
    {y : Option β} {z : Option γ} (h : ∀ a, x = some a → ∀ b c, R a b → S b c → T a c)
    (first : Option.Rel R x y) (second : Option.Rel S y z) : Option.Rel T x z := by
  cases first with
  | none =>
    cases second
    exact .none
  | some hab =>
    cases second with
    | some hbc => exact .some (h _ rfl _ _ hab hbc)

/-- A value that may be absent is related to one such value only, if a value is. -/
theorem optionRel_unique {R S : α → β → Prop} {x : Option α} {y z : Option β}
    (h : ∀ a b c, x = some a → y = some b → z = some c → R a b → S a c → b = c)
    (first : Option.Rel R x y) (second : Option.Rel S x z) : y = z := by
  cases first with
  | none =>
    cases second
    rfl
  | some hab =>
    cases second with
    | some hac => rw [h _ _ _ rfl rfl rfl hab hac]

theorem optionRel_congr {R : α → β → Prop} {S : γ → δ → Prop} {P : α → γ → Prop}
    {Q : β → δ → Prop} {a : Option α} {b : Option β} {c : Option γ} {d : Option δ}
    (h : ∀ x y z w, a = some x → R x y → S z w → (P x z ↔ Q y w)) (hab : Option.Rel R a b)
    (hcd : Option.Rel S c d) : Option.Rel P a c ↔ Option.Rel Q b d := by
  cases hab with
  | none =>
    cases hcd with
    | none => exact ⟨fun _ => .none, fun _ => .none⟩
    | some => exact ⟨nofun, nofun⟩
  | some hxy =>
    cases hcd with
    | none => exact ⟨nofun, nofun⟩
    | some hzw =>
      have same := h _ _ _ _ rfl hxy hzw
      exact ⟨fun | .some hp => .some (same.mp hp), fun | .some hq => .some (same.mpr hq)⟩

/-! ## Lists -/

theorem forall₂_congr {R : α → β → Prop} {S : γ → δ → Prop} {P : α → γ → Prop}
    {Q : β → δ → Prop} {as : List α} {bs : List β} {cs : List γ} {ds : List δ}
    (h : ∀ x y z w, x ∈ as → R x y → S z w → (P x z ↔ Q y w)) (hab : List.Forall₂ R as bs)
    (hcd : List.Forall₂ S cs ds) : List.Forall₂ P as cs ↔ List.Forall₂ Q bs ds := by
  induction hab generalizing cs ds with
  | nil =>
    cases hcd with
    | nil => exact ⟨fun _ => .nil, fun _ => .nil⟩
    | cons => exact ⟨nofun, nofun⟩
  | cons first _ ih =>
    cases hcd with
    | nil => exact ⟨nofun, nofun⟩
    | cons first' rest' =>
      rw [List.forall₂_cons, List.forall₂_cons, h _ _ _ _ List.mem_cons_self first first',
        ih (fun x y z w hx => h x y z w (List.mem_cons_of_mem _ hx)) rest']

theorem forall₂_trans {R : α → β → Prop} {S : β → γ → Prop} {T : α → γ → Prop} {as : List α}
    {bs : List β} {cs : List γ} (h : ∀ a ∈ as, ∀ b c, R a b → S b c → T a c)
    (first : List.Forall₂ R as bs) (second : List.Forall₂ S bs cs) : List.Forall₂ T as cs := by
  induction first generalizing cs with
  | nil =>
    cases second
    exact .nil
  | cons hab _ ih =>
    cases second with
    | cons hbc rest =>
      exact .cons (h _ List.mem_cons_self _ _ hab hbc)
        (ih (fun a ha => h a (List.mem_cons_of_mem _ ha)) rest)

/-- A list is related to one list only, if its items are each related to one item. -/
theorem forall₂_unique {R S : α → β → Prop} {as : List α} {bs cs : List β}
    (h : ∀ a ∈ as, ∀ b ∈ bs, ∀ c ∈ cs, R a b → S a c → b = c) (first : List.Forall₂ R as bs)
    (second : List.Forall₂ S as cs) : bs = cs := by
  induction first generalizing cs with
  | nil =>
    cases second
    rfl
  | cons hab _ ih =>
    cases second with
    | cons hac rest =>
      have same := h _ List.mem_cons_self _ List.mem_cons_self _ List.mem_cons_self hab hac
      rw [same, ih (fun a ha b hb c hc => h a (List.mem_cons_of_mem _ ha) b
        (List.mem_cons_of_mem _ hb) c (List.mem_cons_of_mem _ hc)) rest]

/-- What can be found for each item can be found for a list. -/
theorem exists_forall₂ {R : α → β → Prop} {S : α → γ → Prop} {P : β → δ → Prop} {Q : γ → δ → Prop}
    {xs : List α} {zs : List β} {ss : List γ} (h : List.Forall₂ R xs zs) (k : List.Forall₂ S xs ss)
    (step : ∀ x ∈ xs, ∀ z s, R x z → S x s → ∃ u, P z u ∧ Q s u) :
    ∃ us, List.Forall₂ P zs us ∧ List.Forall₂ Q ss us := by
  induction h generalizing ss with
  | nil =>
    cases k
    exact ⟨[], .nil, .nil⟩
  | cons first _ ih =>
    obtain _ | ⟨first', rest'⟩ := k
    obtain ⟨u, hP, hQ⟩ := step _ List.mem_cons_self _ _ first first'
    obtain ⟨us, restP, restQ⟩ := ih rest' fun x hx => step x (List.mem_cons_of_mem _ hx)
    exact ⟨u :: us, .cons hP restP, .cons hQ restQ⟩

theorem exists_partners {P : α → β → Prop} {xs : List α} (h : ∀ x ∈ xs, ∃ y, P x y) :
    ∃ ys, List.Forall₂ P xs ys := by
  induction xs with
  | nil => exact ⟨[], .nil⟩
  | cons x xs ih =>
    obtain ⟨y, hy⟩ := h x List.mem_cons_self
    obtain ⟨ys, hys⟩ := ih fun z hz => h z (List.mem_cons_of_mem x hz)
    exact ⟨y :: ys, .cons hy hys⟩

/-- Items of related lists are related, and the ones on the left are items of their list. -/
theorem forall₂_mem {R : α → β → Prop} {as : List α} {bs : List β} (h : List.Forall₂ R as bs) :
    List.Forall₂ (fun a b => a ∈ as ∧ R a b) as bs :=
  (List.forall₂_and_left as bs).mpr ⟨fun _ ha => ha, h⟩

theorem forall₂_flip {R : α → β → Prop} {S : β → α → Prop} {as : List α} {bs : List β}
    (h : ∀ a ∈ as, ∀ b ∈ bs, R a b → S b a) (hab : List.Forall₂ R as bs) : List.Forall₂ S bs as := by
  have known := (forall₂_mem (forall₂_mem hab).flip)
  exact known.imp fun b a hba => h a hba.2.1 b hba.1 hba.2.2

theorem forall₂_zip {R : α → β → Prop} {S : γ → δ → Prop} {as : List α} {bs : List β} {cs : List γ}
    {ds : List δ} (h : List.Forall₂ R as bs) (k : List.Forall₂ S cs ds) :
    List.Forall₂ (fun p q => R p.1 q.1 ∧ S p.2 q.2) (as.zip cs) (bs.zip ds) := by
  induction h generalizing cs ds with
  | nil => exact .nil
  | cons first _ ih =>
    cases k with
    | nil => exact .nil
    | cons first' rest' => exact .cons ⟨first, first'⟩ (ih rest')

theorem forall₂_getElem? {R : α → β → Prop} {as : List α} {bs : List β} (h : List.Forall₂ R as bs)
    (i : Nat) : Option.Rel R as[i]? bs[i]? := by
  induction h generalizing i with
  | nil => exact .none
  | cons first _ ih =>
    cases i with
    | zero => exact .some first
    | succ i => simpa using ih i

end SchemaDrift
