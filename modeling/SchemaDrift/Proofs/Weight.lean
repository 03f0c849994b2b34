import SchemaDrift.Proofs.Compatibility
import SchemaDrift.Proofs.Flat
import SchemaDrift.Proofs.Silence

/-!
# Weights of schemas

The weight of a schema is the number of its kinds and rules. A comparison of two leaves reports at
least as many changes as the weight drops, and if it reports no more, its changes of rules are
harmless: they drop rules and do nothing else. So if some alignment of branches costs no more than
the drop of weight in all, every alignment of least total pairs branches that differ harmlessly.

* `Schema.Leaf` singles out the schemas without branches, required names and a list of kinds, and
  `Schema.weight` is the weight of one.
* `Task.Spends` says how a list of edits stands to the rules that are lost, and `Course.Spent` that
  a pair costs no more than the weight drops.
* `Course.spent_of_least` is the statement on alignments.
-/

namespace SchemaDrift

namespace Task

/-! ## Edits and lost rules -/

/-- Edits that lead from `m` rules to `n`: there are at least as many of them as rules are lost, and
if there are no more, they are harmless. -/
structure Spends (edits : List Edit) (m n : Nat) : Prop where
  le : m ≤ edits.length + n
  harmless : edits.length + n ≤ m → Harmless edits

theorem Spends.nil : Spends [] 0 0 := ⟨Nat.le_refl 0, fun _ => nofun⟩

theorem Spends.append {es fs : List Edit} {m n m' n' : Nat} (h : Spends es m n)
    (k : Spends fs m' n') : Spends (es ++ fs) (m + m') (n + n') := by
  have first := h.le
  have second := k.le
  constructor
  · rw [List.length_append]
    omega
  · intro few
    rw [List.length_append] at few
    exact (h.harmless (by omega)).append (k.harmless (by omega))

theorem Spends.flatMap {β : Type} {f : β → List Edit} {m n : β → Nat}
    (h : ∀ b, Spends (f b) (m b) (n b)) (bs : List β) :
    Spends (bs.flatMap f) (bs.map m).sum (bs.map n).sum := by
  induction bs with
  | nil => exact .nil
  | cons b bs ih => exact (h b).append ih

theorem spends_valueEdits {α : Type} {agrees : α → α → Bool} {added removed : α → Edit}
    {changed : α → α → Edit} (dropped : ∀ x, (removed x).isBreaking = false) (x y : Option α) :
    Spends (valueEdits agrees added removed changed x y) x.toList.length y.toList.length := by
  cases x with
  | none =>
    cases y with
    | none => exact .nil
    | some y => exact ⟨Nat.zero_le _, nofun⟩
  | some x =>
    cases y with
    | none =>
      refine ⟨Nat.le_refl 1, fun _ e he => ?_⟩
      rw [List.mem_singleton.mp he]
      exact dropped x
    | some y =>
      show Spends (if agrees x y = true then [] else [changed x y]) 1 1
      split
      · exact ⟨Nat.le_refl 1, fun _ => nofun⟩
      · exact ⟨Nat.le_succ 1, fun few => nomatch Nat.le_of_succ_le_succ few⟩

def boundCount (rules : NumberRules) : Nat :=
  (Bound.all.map fun b => (boundValue rules b).toList.length).sum

def textCount (rules : StringRules) : Nat :=
  rules.format.toList.length + rules.pattern.toList.length + rules.minLength.toList.length +
    rules.maxLength.toList.length

theorem spends_rangeEdits (s t : Schema) :
    Spends (rangeEdits s t) (boundCount (boundsOf s)) (boundCount (boundsOf t)) :=
  .flatMap (fun _ => spends_valueEdits (fun _ => rfl) _ _) Bound.all

theorem length_lifted (x : Option Nat) :
    (do let n ← x; pure (n : Int)).toList.length = x.toList.length := by
  cases x <;> rfl

theorem spends_textEdits (s t : Schema) :
    Spends (textEdits s t) (textCount s.text) (textCount t.text) := by
  unfold textCount
  rw [← length_lifted s.text.minLength, ← length_lifted s.text.maxLength,
    ← length_lifted t.text.minLength, ← length_lifted t.text.maxLength]
  exact (((spends_valueEdits (fun _ => rfl) _ _).append
    (spends_valueEdits (fun _ => rfl) _ _)).append
      (spends_valueEdits (fun _ => rfl) _ _)).append (spends_valueEdits (fun _ => rfl) _ _)

theorem length_valueEdits_none {α : Type} {agrees : α → α → Bool} {added removed : α → Edit}
    {changed : α → α → Edit} (x : Option α) :
    (valueEdits agrees added removed changed x none).length = x.toList.length := by
  cases x <;> rfl

theorem length_rangeEdits_nothing (s : Schema) :
    (rangeEdits s .nothing).length = boundCount (boundsOf s) := by
  unfold rangeEdits boundCount
  rw [List.length_flatMap]
  refine congrArg List.sum (List.map_congr_left fun b _ => ?_)
  have unbounded : boundValue (boundsOf .nothing) b = none := by cases b <;> rfl
  rw [unbounded]
  exact length_valueEdits_none _

theorem length_textEdits_nothing (s : Schema) :
    (textEdits s .nothing).length = textCount s.text := by
  unfold textEdits textCount
  rw [← length_lifted s.text.minLength, ← length_lifted s.text.maxLength]
  simp only [List.length_append]
  exact congrArg₂ _ (congrArg₂ _ (congrArg₂ _ (length_valueEdits_none _) (length_valueEdits_none _))
    (length_valueEdits_none _)) (length_valueEdits_none _)

theorem length_typeEdits_nothing (s : Schema) :
    (typeEdits s .nothing).length ≤ s.typing.kindSet.length := by
  have none_gained : Schema.nothing.typing.kindSet = [] := rfl
  rw [typeEdits, none_gained, List.length_append, List.length_map]
  exact List.length_filter_le _ _

/-- As many kinds as are lost are reported at least. -/
theorem kinds_le (s t : Schema) :
    s.typing.kindSet.length ≤ (typeEdits s t).length + t.typing.kindSet.length := by
  have distinct : s.typing.kindSet.Nodup :=
    List.Nodup.filter _ (show Kind.all.Nodup by decide)
  have kept : (s.typing.kindSet.filter t.typing.kindSet.contains).Subperm t.typing.kindSet := by
    refine (distinct.filter _).subperm fun k hk => ?_
    exact List.contains_iff_mem.mp (List.mem_filter.mp hk).2
  have parts := List.length_eq_length_filter_add (l := s.typing.kindSet) t.typing.kindSet.contains
  have most := kept.length_le
  rw [typeEdits, List.length_append, List.length_map, List.length_map]
  omega

end Task

/-! ## Leaves -/

namespace Schema

/-- A flat schema that is not split up and requires no names. -/
structure Leaf (s : Schema) : Prop extends s.Flat where
  whole : s.split? = none
  required : s.required = []

def ruleCount (s : Schema) : Nat := Task.boundCount s.number + Task.textCount s.text

/-- How many kinds and rules a schema has. -/
def weight (s : Schema) : Nat := s.typing.kindSet.length + s.ruleCount

theorem leaf_nothing : nothing.Leaf := ⟨flat_nothing, rfl, rfl⟩

namespace Leaf

variable {s t : Schema}

theorem facetEdits_eq (hs : s.Leaf) (ht : t.Leaf) :
    facetEdits s t = Task.rangeEdits s t ++ Task.textEdits s t := by
  rw [facetEdits, Task.requiredEdits, hs.required, ht.required]
  exact congrArg (· ++ Task.textEdits s t) (List.append_nil (Task.rangeEdits s t))

theorem spends_facetEdits (hs : s.Leaf) (ht : t.Leaf) :
    Task.Spends (facetEdits s t) s.ruleCount t.ruleCount := by
  have bounds := Task.spends_rangeEdits s t
  rw [hs.boundsOf_eq, ht.boundsOf_eq] at bounds
  rw [hs.facetEdits_eq ht]
  exact bounds.append (Task.spends_textEdits s t)

end Leaf

end Schema

namespace Course

open Assignment Schema

variable {setting : Setting} {levels : Nat} {s t : Schema}

/-- The price of a pair of leaves. -/
theorem price_leaf (hs : s.Leaf) (ht : t.Leaf) :
    (price setting (levels + 1) s t).result =
      .ok ((Task.typeEdits s t).length + (facetEdits s t).length) := by
  unfold price
  rw [within_flat hs.toFlat ht.toFlat hs.whole ht.whole]
  simp [Outcome.tally, Outcome.done, shallowEdits]

/-- A pair of leaves costs at least as much as the weight drops. -/
theorem weight_le (hs : s.Leaf) (ht : t.Leaf) {c : Nat}
    (cost : (price setting (levels + 1) s t).result = .ok c) : s.weight ≤ c + t.weight := by
  have kinds := Task.kinds_le s t
  have facets := (hs.spends_facetEdits ht).le
  rw [price_leaf hs ht] at cost
  obtain rfl := Except.ok.inj cost
  unfold weight
  omega

/-- A pair of leaves that costs no more than the weight drops differs harmlessly in its rules. -/
theorem harmless_of_spent (hs : s.Leaf) (ht : t.Leaf) {c : Nat}
    (cost : (price setting (levels + 1) s t).result = .ok c) (spent : c + t.weight ≤ s.weight) :
    Task.Harmless (facetEdits s t) := by
  have kinds := Task.kinds_le s t
  rw [price_leaf hs ht] at cost
  obtain rfl := Except.ok.inj cost
  unfold weight at spent
  exact (hs.spends_facetEdits ht).harmless (by omega)

/-! ## Pairs that cost no more than the weight drops -/

/-- A pair costs no more than the weight drops. -/
def Spent (setting : Setting) (levels : Nat) (s t : Schema) : Prop :=
  ∀ c, (price setting levels s t).result = .ok c → c + t.weight ≤ s.weight

/-- A leaf costs nothing against itself, if its bounds are alike themselves. -/
theorem spent_self (hs : s.Leaf) (alike : s.number.alike s.number = true) :
    Spent setting (levels + 1) s s := by
  intro c cost
  rw [price_leaf hs hs, hs.facetEdits_eq hs, Task.typeEdits_of_kinds rfl, Task.textEdits_of_eq rfl,
    Task.rangeEdits_of_alike (by rw [hs.boundsOf_eq]; exact alike)] at cost
  obtain rfl := Except.ok.inj cost
  exact Nat.le_of_eq (Nat.zero_add _)

/-- A leaf costs its weight against the schema that admits nothing. -/
theorem spent_nothing (hs : s.Leaf) : Spent setting (levels + 1) s .nothing := by
  intro c cost
  rw [price_leaf hs leaf_nothing, hs.facetEdits_eq leaf_nothing, List.length_append,
    Task.length_rangeEdits_nothing, Task.length_textEdits_nothing, hs.boundsOf_eq] at cost
  obtain rfl := Except.ok.inj cost
  have kinds := Task.length_typeEdits_nothing s
  show _ + 0 ≤ s.typing.kindSet.length + (Task.boundCount s.number + Task.textCount s.text)
  omega

/-! ## Alignments -/

/-- The weight of a schema in the arithmetic of assignments. -/
def heft (s : Schema) : Int := s.weight

variable {olds news : List Schema} {costs : List (List Nat)} {columns : List Nat}

/-- If partners cost no more than the weight drops, their columns do not in all. -/
theorem total_le_of_partners {us : List Schema}
    (priced : List.Forall₂ (Priced setting levels news) olds costs)
    (paired : List.Forall₂ (Spent setting levels) olds us)
    (placed : List.Forall₂ (fun u (j : Nat) => news[j]? = some u) us columns) :
    total (square costs) columns + Assignment.sum (us.map heft) ≤
      Assignment.sum (olds.map heft) := by
  induction paired generalizing costs columns with
  | nil =>
    cases priced
    exact Int.le_refl 0
  | @cons s u olds us spent _ ih =>
    obtain _ | ⟨row, priced⟩ := priced
    obtain _ | ⟨place, placed⟩ := placed
    obtain ⟨c, entry, cost⟩ := getElem?_forall₂ row place
    have first := spent c cost
    have rest := ih priced placed
    have left : heft s = s.weight := rfl
    have right : heft u = u.weight := rfl
    rw [total_square_cons entry]
    show _ + (heft u + Assignment.sum _) ≤ heft s + Assignment.sum _
    omega

/-- If no pair costs less than the weight drops, no assignment does in all, and one that does not
cost more chooses only pairs that cost no more than the weight drops. -/
theorem spent_of_total_le (priced : List.Forall₂ (Priced setting levels news) olds costs)
    (drops : ∀ s ∈ olds, ∀ t ∈ news, ∀ c, (price setting levels s t).result = .ok c →
      s.weight ≤ c + t.weight)
    (all : columns.length = olds.length) (within_news : ∀ j ∈ columns, j < news.length) :
    Assignment.sum (olds.map heft) ≤ total (square costs) columns +
        Assignment.sum (columns.map fun j => (news.map heft).getD j 0) ∧
      (total (square costs) columns +
          Assignment.sum (columns.map fun j => (news.map heft).getD j 0) ≤
            Assignment.sum (olds.map heft) →
        ∀ p ∈ olds.zip columns, ∀ t, news[p.2]? = some t → Spent setting levels p.1 t) := by
  induction priced generalizing columns with
  | nil =>
    obtain rfl := List.eq_nil_of_length_eq_zero all
    exact ⟨Int.le_refl 0, fun _ => nofun⟩
  | @cons s row olds costs first _ ih =>
    obtain _ | ⟨j, columns⟩ := columns
    · exact nomatch all
    have hj : j < news.length := within_news j List.mem_cons_self
    obtain ⟨t, ht⟩ : ∃ t, news[j]? = some t := ⟨_, List.getElem?_eq_getElem hj⟩
    obtain ⟨c, entry, cost⟩ := getElem?_forall₂ first ht
    have weighed : (news.map heft).getD j 0 = heft t := by
      rw [List.getD_eq_getElem?_getD, List.getElem?_map, ht]
      rfl
    have drop := drops s List.mem_cons_self t (List.mem_of_getElem? ht) c cost
    obtain ⟨least, tight⟩ := ih (fun s hs => drops s (List.mem_cons_of_mem _ hs))
      (Nat.succ.inj all) fun i hi => within_news i (List.mem_cons_of_mem j hi)
    have left : heft s = s.weight := rfl
    have right : heft t = t.weight := rfl
    rw [total_square_cons entry]
    show heft s + Assignment.sum _ ≤ _ + ((news.map heft).getD j 0 + Assignment.sum _) ∧
      (_ + ((news.map heft).getD j 0 + Assignment.sum _) ≤ heft s + Assignment.sum _ → _)
    rw [weighed]
    refine ⟨by omega, fun few p hp u hu => ?_⟩
    rcases List.mem_cons.mp hp with rfl | hp
    · obtain rfl := Option.some.inj (ht.symm.trans hu)
      intro d hd
      have same : c = d := Except.ok.inj (cost.symm.trans hd)
      show d + t.weight ≤ s.weight
      omega
    · exact tight (by omega) p hp u hu

/-- If branches have partners that cost no more than the weight drops, every assignment of least
total chooses only such pairs. -/
theorem spent_of_least (priced : List.Forall₂ (Priced setting levels news) olds costs)
    (drops : ∀ s ∈ olds, ∀ t ∈ news, ∀ c, (price setting levels s t).result = .ok c →
      s.weight ≤ c + t.weight)
    (partners : ∃ us, List.Forall₂ (Spent setting levels) olds us ∧ us.Perm news)
    (least : Least (square costs) columns) {j : Nat} (hs : (s, j) ∈ olds.zip columns)
    (ht : news[j]? = some t) : Spent setting levels s t := by
  obtain ⟨us, paired, arranged⟩ := partners
  have sized : olds.length = news.length := paired.length_eq.trans arranged.length_eq
  have rows : (square costs).length = news.length := by
    rw [square, List.length_map, ← priced.length_eq, sized]
  have perm : columns.Perm (List.range (news.map heft).length) := by
    rw [List.length_map, ← rows]
    exact least.perm
  have places : List.Forall₂ (fun u (j : Nat) => news[j]? = some u) news
      (List.range news.length) := by
    rw [List.forall₂_iff_get]
    exact ⟨List.length_range.symm, fun i h _ => by simp⟩
  obtain ⟨others, placed, others_perm⟩ := List.perm_comp_forall₂ arranged places
  have most := total_le_of_partners priced paired placed
  have cheapest := least.le others (by rw [rows]; exact others_perm)
  have weighed : Assignment.sum (columns.map fun j => (news.map heft).getD j 0) =
      Assignment.sum (us.map heft) := by
    rw [sum_map_perm perm, sum_getD_range, sum_map_perm arranged]
  obtain ⟨-, tight⟩ := spent_of_total_le priced drops
    (by rw [perm.length_eq, List.length_range, List.length_map, sized])
    fun j hj => by
      rw [← List.length_map heft]
      exact List.mem_range.mp (perm.mem_iff.mp hj)
  exact tight (by rw [weighed]; omega) (s, j) hs t ht

end Course

end SchemaDrift
