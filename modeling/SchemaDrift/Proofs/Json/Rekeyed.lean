import Mathlib
import SchemaDrift.Proofs.Json.Equality
import SchemaDrift.Proofs.Related

/-!
# JSON values with their keys in another order

* `Json.Rekeyed` relates values that differ in the order of keys only, at any depth.
* `Json.agree_rekeyed`: equality does not see the order of keys on either side, and neither does
  likeness.
* `Json.agree_flip`: where no key is repeated, the sides of either can be exchanged.
* `Json.Rekeyed.equal`: without `nan` such values are equal.
-/

namespace SchemaDrift

namespace Json

/-- The same value, without repeated keys, but for the order of the keys of objects. -/
inductive Rekeyed : Json → Json → Prop where
  | null : Rekeyed .null .null
  | bool (b : Bool) : Rekeyed (.bool b) (.bool b)
  | num (n : Number) : Rekeyed (.num n) (.num n)
  | str (s : String) : Rekeyed (.str s) (.str s)
  | arr {xs ys : List Json} : List.Forall₂ Rekeyed xs ys → Rekeyed (.arr xs) (.arr ys)
  | obj {fs gs : List (String × Json)} : (Fields.keys fs).Nodup → (Fields.keys gs).Nodup →
    (∀ key, Option.Rel Rekeyed (fs.lookup key) (gs.lookup key)) → Rekeyed (.obj fs) (.obj gs)

namespace Rekeyed

theorem of_arr {xs : List Json} {y : Json} (h : Rekeyed (.arr xs) y) :
    ∃ ys, y = .arr ys ∧ List.Forall₂ Rekeyed xs ys := by
  cases h with
  | arr paired => exact ⟨_, rfl, paired⟩

theorem of_obj {fs : List (String × Json)} {y : Json} (h : Rekeyed (.obj fs) y) :
    ∃ gs, y = .obj gs ∧ Fields.Tally Rekeyed fs gs := by
  cases h with
  | obj left right lookup => exact ⟨_, rfl, left, right, lookup⟩

theorem items {xs ys : List Json} (h : Rekeyed (.arr xs) (.arr ys)) :
    List.Forall₂ Rekeyed xs ys := by
  cases h with
  | arr paired => exact paired

theorem tally {fs gs : List (String × Json)} (h : Rekeyed (.obj fs) (.obj gs)) :
    Fields.Tally Rekeyed fs gs := by
  cases h with
  | obj left right lookup => exact ⟨left, right, lookup⟩

theorem kind {x y : Json} (h : Rekeyed x y) : x.kind = y.kind := by
  cases h <;> rfl

theorem refl (x : Json) (distinct : x.Throughout DistinctKeys) : Rekeyed x x := by
  induction x using parts_induction with
  | null => exact .null
  | bool b => exact .bool b
  | num n => exact .num n
  | str s => exact .str s
  | arr xs ih => exact .arr (List.forall₂_same.mpr fun x hx => ih x hx (distinct.item hx))
  | obj fs ih =>
    refine .obj distinct.here distinct.here fun key => ?_
    rcases found : fs.lookup key with _ | x
    · exact .none
    · have hx := Fields.mem_of_lookup found
      exact .some (ih key x hx (distinct.field hx))

/-- The keys of an object may stand in any order. -/
theorem perm {fs gs : List (String × Json)} (distinct : (Json.obj fs).Throughout DistinctKeys)
    (h : fs.Perm gs) : Rekeyed (.obj fs) (.obj gs) := by
  have names : (Fields.keys fs).Perm (Fields.keys gs) := h.map Prod.fst
  obtain ⟨_, same, tally⟩ := (refl _ distinct).of_obj
  obtain rfl := Json.obj.inj same
  refine .obj tally.left (names.nodup_iff.mp tally.left) fun key => ?_
  rw [← Fields.lookup_perm tally.left h]
  exact tally.lookup key

theorem symm {x y : Json} (h : Rekeyed x y) : Rekeyed y x := by
  induction x using parts_induction generalizing y with
  | arr xs ih =>
    obtain ⟨ys, rfl, paired⟩ := h.of_arr
    exact .arr ((forall₂_mem paired).imp fun x y hxy => ih x hxy.1 hxy.2).flip
  | obj fs ih =>
    obtain ⟨gs, rfl, tally⟩ := h.of_obj
    refine .obj tally.right tally.left fun key => optionRel_flip ?_ (tally.lookup key)
    exact fun x y hx _ hxy => ih key x (Fields.mem_of_lookup hx) hxy
  | _ => cases h; constructor

theorem trans {x y z : Json} (h : Rekeyed x y) (k : Rekeyed y z) : Rekeyed x z := by
  induction x using parts_induction generalizing y z with
  | arr xs ih =>
    obtain ⟨ys, rfl, paired⟩ := h.of_arr
    obtain ⟨zs, rfl, paired'⟩ := k.of_arr
    exact .arr (forall₂_trans (fun x hx y z h k => ih x hx (y := y) (z := z) h k) paired paired')
  | obj fs ih =>
    obtain ⟨gs, rfl, tally⟩ := h.of_obj
    obtain ⟨hs, rfl, tally'⟩ := k.of_obj
    refine .obj tally.left tally'.right fun key => ?_
    refine optionRel_trans (fun x hx _ _ h k => ?_) (tally.lookup key) (tally'.lookup key)
    exact ih key x (Fields.mem_of_lookup hx) h k
  | _ => cases h; exact k

end Rekeyed

/-! ## Equality and the order of keys -/

/-- A comparison of scalars that does not look into arrays and objects. -/
structure Shallow (scalars : Json → Json → Bool) : Prop where
  arr : ∀ x xs ys, scalars x (.arr xs) = scalars x (.arr ys)
  obj : ∀ x fs gs, scalars x (.obj fs) = scalars x (.obj gs)

theorem shallow_scalarEqual : Shallow scalarEqual where
  arr x _ _ := by cases x <;> rfl
  obj x _ _ := by cases x <;> rfl

theorem shallow_scalarAlike : Shallow scalarAlike where
  arr x _ _ := by cases x <;> rfl
  obj x _ _ := by cases x <;> rfl

theorem Shallow.rekeyed {scalars : Json → Json → Bool} (h : Shallow scalars) (x : Json)
    {y y' : Json} (hy : Rekeyed y y') : scalars x y = scalars x y' := by
  cases hy with
  | arr => exact h.arr x _ _
  | obj => exact h.obj x _ _
  | _ => rfl

/-- Neither side of a comparison needs its keys in order. -/
theorem agree_rekeyed {scalars : Json → Json → Bool} (shallow : Shallow scalars) {x x' y y' : Json}
    (hx : Rekeyed x x') (hy : Rekeyed y y') : agree scalars x y = agree scalars x' y' := by
  induction x using parts_induction generalizing x' y y' with
  | null =>
    cases hx
    rw [agree, agree]
    exact shallow.rekeyed _ hy
  | bool b =>
    cases hx
    rw [agree, agree]
    exact shallow.rekeyed _ hy
  | num n =>
    cases hx
    rw [agree, agree]
    exact shallow.rekeyed _ hy
  | str s =>
    cases hx
    rw [agree, agree]
    exact shallow.rekeyed _ hy
  | arr xs ih =>
    obtain ⟨xs', rfl, paired⟩ := hx.of_arr
    cases hy with
    | arr paired' =>
      rw [agree, agree, Bool.eq_iff_iff, agreeItems_iff, agreeItems_iff]
      refine forall₂_congr (fun a b c d ha hab hcd => ?_) paired paired'
      rw [ih a ha hab hcd]
    | _ => rfl
  | obj fs ih =>
    obtain ⟨fs', rfl, tally⟩ := hx.of_obj
    cases hy with
    | obj left right lookup =>
      rw [Bool.eq_iff_iff, agree_obj_iff tally.left, agree_obj_iff tally.right]
      refine forall_congr' fun key => optionRel_congr ?_ (tally.lookup key) (lookup key)
      intro a b c d ha hab hcd
      rw [ih key a (Fields.mem_of_lookup ha) hab hcd]
    | _ => rfl

theorem equal_rekeyed {x x' y y' : Json} (hx : Rekeyed x x') (hy : Rekeyed y y') :
    x.equal y = x'.equal y' := agree_rekeyed shallow_scalarEqual hx hy

theorem alike_rekeyed {x x' y y' : Json} (hx : Rekeyed x x') (hy : Rekeyed y y') :
    x.alike y = x'.alike y' := agree_rekeyed shallow_scalarAlike hx hy

/-- A comparison of scalars that is mutual and holds of no array and no object. -/
structure Exchangeable (scalars : Json → Json → Bool) : Prop where
  comm : ∀ x y, scalars x y = scalars y x
  arr : ∀ x ys, scalars x (.arr ys) = false
  obj : ∀ x gs, scalars x (.obj gs) = false

theorem exchangeable_scalarEqual : Exchangeable scalarEqual where
  comm x y := by
    cases x <;> cases y <;> first | rfl | exact Number.same_comm _ _ | exact Bool.beq_comm
  arr x _ := by cases x <;> rfl
  obj x _ := by cases x <;> rfl

theorem exchangeable_scalarAlike : Exchangeable scalarAlike where
  comm x y := by
    unfold scalarAlike
    rcases x.asNumber? with _ | a <;> rcases y.asNumber? with _ | b
    · exact exchangeable_scalarEqual.comm x y
    · rfl
    · rfl
    · dsimp only
      rw [Number.same_comm, Bool.and_comm]
  arr x _ := by cases x <;> rfl
  obj x _ := by cases x <;> rfl

/-- Where no key is repeated, the sides of a comparison can be exchanged. -/
theorem agree_flip {scalars : Json → Json → Bool} (exchangeable : Exchangeable scalars) {x y : Json}
    (hx : x.Rekeyed x) (hy : y.Rekeyed y) (h : agree scalars x y = true) :
    agree scalars y x = true := by
  have leaf (x : Json) (scalar : ∀ y, agree scalars x y = scalars x y) {y : Json}
      (h : agree scalars x y = true) : agree scalars y x = true := by
    rw [scalar] at h
    cases y with
    | arr ys => cases (exchangeable.arr x ys).symm.trans h
    | obj gs => cases (exchangeable.obj x gs).symm.trans h
    | _ =>
      rw [agree, exchangeable.comm]
      exact h
  induction x using parts_induction generalizing y with
  | null => exact leaf _ (fun _ => by rw [agree]) h
  | bool b => exact leaf _ (fun _ => by rw [agree]) h
  | num n => exact leaf _ (fun _ => by rw [agree]) h
  | str s => exact leaf _ (fun _ => by rw [agree]) h
  | arr xs ih =>
    cases y with
    | arr ys =>
      have left := List.forall₂_same.mp hx.items
      have right := List.forall₂_same.mp hy.items
      rw [agree, agreeItems_iff] at h ⊢
      exact forall₂_flip (fun a ha b hb => ih a ha (left a ha) (right b hb)) h
    | _ => cases h
  | obj fs ih =>
    cases y with
    | obj gs =>
      rw [agree_obj_iff hx.tally.left] at h
      rw [agree_obj_iff hy.tally.left]
      refine fun key => optionRel_flip (fun a b hf hg => ?_) (h key)
      exact ih key a (Fields.mem_of_lookup hf) (rel_self (hx.tally.lookup key) hf)
        (rel_self (hy.tally.lookup key) hg)
    | _ => cases h

theorem equal_comm {x y : Json} (hx : x.Rekeyed x) (hy : y.Rekeyed y) : x.equal y = y.equal x :=
  Bool.eq_iff_iff.mpr
    ⟨agree_flip exchangeable_scalarEqual hx hy, agree_flip exchangeable_scalarEqual hy hx⟩

/-- Values that differ in the order of keys only are equal, unless they contain `nan`. -/
theorem Rekeyed.equal {x y : Json} (h : Rekeyed x y) (notNan : x.Throughout NotNan) :
    x.equal y = true := by
  induction x using parts_induction generalizing y with
  | null => cases h; rfl
  | bool b => cases h; cases b <;> rfl
  | num n =>
    cases h
    exact Number.same_self fun nan => notNan.here (by rw [nan])
  | str s =>
    cases h
    exact beq_self_eq_true s
  | arr xs ih =>
    obtain ⟨ys, rfl, paired⟩ := h.of_arr
    show agreeItems scalarEqual xs ys = true
    rw [agreeItems_iff]
    exact (forall₂_mem paired).imp fun x y hxy => ih x hxy.1 hxy.2 (notNan.item hxy.1)
  | obj fs ih =>
    obtain ⟨gs, rfl, tally⟩ := h.of_obj
    show agree scalarEqual (.obj fs) (.obj gs) = true
    rw [agree_obj_iff tally.left]
    refine fun key => optionRel_mono (fun x y hx hxy => ?_) (tally.lookup key)
    have within := Fields.mem_of_lookup hx
    exact ih key x within hxy (notNan.field within)

end Json

end SchemaDrift
