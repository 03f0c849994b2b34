import Mathlib
import SchemaDrift.Number

/-!
# The order of numbers

* `Number.same_iff`: numbers have the same value if they stand at the same place.
* `Number.same_self` and `Number.same_comm`: every number but `nan` has its own value, and having
  the same value is mutual.
* `Number.related_trans`: a number that is related to a bound is so related to any bound that is as
  lax, and by `Number.related_lax_of_same` a bound of the same value is as lax.
-/

namespace SchemaDrift

/-- The relation by which a bound may become a laxer one. -/
def Relation.lax : Relation → Relation
  | .below | .atMost => .atMost
  | .above | .atLeast => .atLeast

namespace Number

/-! ## Places -/

theorem order_self (p : Place) : p.order p = .eq := by
  cases p <;> simp [Place.order]

theorem order_eq_iff {p q : Place} : p.order q = .eq ↔ p = q := by
  constructor
  · intro h
    cases p with
    | below => cases q <;> first | rfl | cases h
    | above => cases q <;> first | rfl | cases h
    | point a =>
      cases q with
      | point b =>
        simp only [Place.order] at h
        split at h
        · cases h
        · split at h
          · next same => rw [same]
          · cases h
      | _ => cases h
  · rintro rfl
    exact order_self p

theorem order_trans {r : Relation} {p q u : Place} (h : r.holds (p.order q) = true)
    (k : r.lax.holds (q.order u) = true) : r.holds (p.order u) = true := by
  cases r <;> cases p <;> cases q <;> cases u <;>
    simp_all only [Relation.lax, Relation.holds, Place.order] <;> grind

/-! ## Numbers -/

/-- Every number but `nan` stands somewhere on the number line. -/
theorem place_isSome {a : Number} (h : a ≠ .double .nan) : ∃ p, a.place = some p := by
  cases a with
  | int n => exact ⟨_, rfl⟩
  | double x =>
    cases x with
    | nan => exact absurd rfl h
    | infinite negative => exact ⟨_, rfl⟩
    | finite negative scale fraction => exact ⟨_, rfl⟩

theorem place_double_iff {x : Double} {u : Int} :
    (double x).place = some (.point u) ↔ x.units = some u := by
  cases x with
  | nan => exact ⟨nofun, nofun⟩
  | infinite negative => cases negative <;> exact ⟨nofun, nofun⟩
  | finite negative scale fraction =>
    show some (Place.point _) = _ ↔ some _ = _
    rw [Option.some.injEq, Option.some.injEq, Place.point.injEq]

theorem same_iff {a b : Number} :
    a.same b = true ↔ ∃ p, a.place = some p ∧ b.place = some p := by
  unfold same compare?
  generalize a.place = p
  generalize b.place = q
  cases p with
  | none => exact ⟨nofun, fun ⟨_, h, _⟩ => nomatch h⟩
  | some p =>
    cases q with
    | none => exact ⟨nofun, fun ⟨_, _, h⟩ => nomatch h⟩
    | some q =>
      show (some (p.order q) == some .eq) = true ↔ _
      rw [beq_iff_eq, Option.some.injEq, order_eq_iff]
      exact ⟨fun h => ⟨p, rfl, by rw [h]⟩, fun ⟨u, hp, hq⟩ =>
        (Option.some.inj hp).trans (Option.some.inj hq).symm⟩

theorem same_self {a : Number} (h : a ≠ .double .nan) : a.same a = true := by
  obtain ⟨p, hp⟩ := place_isSome h
  exact same_iff.mpr ⟨p, hp, hp⟩

theorem same_comm (a b : Number) : a.same b = b.same a := by
  rw [Bool.eq_iff_iff, same_iff, same_iff]
  exact exists_congr fun _ => And.comm

theorem same_trans {a b c : Number} (h : a.same b = true) (k : b.same c = true) :
    a.same c = true := by
  obtain ⟨p, ha, hb⟩ := same_iff.mp h
  obtain ⟨q, hb', hc⟩ := same_iff.mp k
  obtain rfl := Option.some.inj (hb.symm.trans hb')
  exact same_iff.mpr ⟨p, ha, hc⟩

theorem same_int {m n : Int} : (int m).same (int n) = true ↔ m = n := by
  rw [same, compare?_int]
  simp

/-- A double has the value of the integer that it is equal to. -/
theorem same_of_integer {x : Double} {n : Int} (h : x.integer? = some n) :
    (double x).same (int n) = true := by
  cases x with
  | finite negative scale fraction =>
    unfold Double.integer? at h
    dsimp only at h
    split at h
    · next whole =>
      obtain rfl := Option.some.inj h
      have restored : ((Double.magnitude scale fraction : Int) / Double.one) * Double.one =
          Double.magnitude scale fraction :=
        Int.ediv_mul_cancel (Int.natCast_dvd_natCast.mpr (Nat.dvd_of_mod_eq_zero whole))
      refine same_iff.mpr ⟨_, place_double_iff.mpr rfl, ?_⟩
      show some (Place.point _) = some (Place.point _)
      cases negative
      · exact congrArg (some ∘ Place.point) restored
      · refine congrArg (some ∘ Place.point) ?_
        rw [if_pos rfl, if_pos rfl, Int.neg_mul, restored]
    · exact nomatch h
  | _ => exact nomatch h

theorem related_iff {r : Relation} {a b : Number} :
    a.related r b = true ↔
      ∃ p q, a.place = some p ∧ b.place = some q ∧ r.holds (p.order q) = true := by
  unfold related compare?
  generalize a.place = p
  generalize b.place = q
  cases p with
  | none => exact ⟨nofun, fun ⟨_, _, h, _⟩ => nomatch h⟩
  | some p =>
    cases q with
    | none => exact ⟨nofun, fun ⟨_, _, _, h, _⟩ => nomatch h⟩
    | some q =>
      exact ⟨fun h => ⟨p, q, rfl, rfl, h⟩, fun ⟨u, w, hp, hq, h⟩ => by
        rw [Option.some.inj hp, Option.some.inj hq]
        exact h⟩

theorem related_trans {r : Relation} {a b c : Number} (h : a.related r b = true)
    (k : b.related r.lax c = true) : a.related r c = true := by
  obtain ⟨p, q, ha, hb, h⟩ := related_iff.mp h
  obtain ⟨q', u, hb', hc, k⟩ := related_iff.mp k
  obtain rfl := Option.some.inj (hb.symm.trans hb')
  exact related_iff.mpr ⟨p, u, ha, hc, order_trans h k⟩

theorem related_lax_of_same {a b : Number} (h : a.same b = true) (r : Relation) :
    a.related r.lax b = true := by
  obtain ⟨p, ha, hb⟩ := same_iff.mp h
  refine related_iff.mpr ⟨p, p, ha, hb, ?_⟩
  rw [order_self]
  cases r <;> rfl

/-- Bounds of one value are satisfied by the same numbers. -/
theorem related_congr {a b c : Number} (h : b.same c = true) (r : Relation) :
    a.related r b = true ↔ a.related r c = true := by
  have back : c.same b = true := by rwa [same_comm]
  exact ⟨fun k => related_trans k (related_lax_of_same h r),
    fun k => related_trans k (related_lax_of_same back r)⟩

end Number

end SchemaDrift
