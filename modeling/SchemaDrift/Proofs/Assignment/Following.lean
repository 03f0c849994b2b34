import SchemaDrift.Proofs.Assignment.Bounds

/-!
# Other sorts of numbers that follow the whole ones

A sort of number follows the whole numbers up to a limit if all sums, differences and comparisons
come out right as long as no value exceeds the limit. No value of the search is larger than a few
costs, so within such a limit the search takes the same steps as it does in whole numbers and
proposes the same assignment.

* `Arithmetic.Follows` says what a sort of number must get right.
* `Ways.extend_follows` and `Ways.nearest_follows`: so do the steps of a search.
* `findFree_follows`, `Stage.takeUp_follows` and `propose_follows`: so do a whole search, the
  taking up of a row and the search for an assignment.
-/

namespace SchemaDrift.Assignment

variable {α : Type}

/-- Whether calculating gives what it gives in whole numbers, as long as no sum and no difference
exceeds a limit; `R` relates the numbers to the whole ones that they stand for. -/
structure Arithmetic.Follows (A : Arithmetic α) (R : α → Int → Prop) (limit : Int) : Prop where
  zero : R A.zero 0
  plus : ∀ x y a b, R x a → R y b → -limit ≤ a + b → a + b ≤ limit → R (A.plus x y) (a + b)
  minus : ∀ x y a b, R x a → R y b → -limit ≤ a - b → a - b ≤ limit → R (A.minus x y) (a - b)
  less : ∀ x y a b, R x a → R y b → A.less x y = decide (a < b)
  reachable : ∀ x a, R x a → A.reachable x = true

structure Stage.Follows (A : Arithmetic α) (R : α → Int → Prop) (p : Stage α) (q : Stage Int) :
    Prop where
  owner : p.owner = q.owner
  columnOf : p.columnOf = q.columnOf
  rows : p.rowPrice.size = q.rowPrice.size
  columns : p.columnPrice.size = q.columnPrice.size
  rowPrice : ∀ i, R (p.rowPrice.getD i A.zero) (q.rowPrice.getD i 0)
  columnPrice : ∀ j, R (p.columnPrice.getD j A.zero) (q.columnPrice.getD j 0)

structure Ways.Follows (R : α → Int → Prop) (start : Nat) (w : Ways α) (v : Ways Int) : Prop where
  lengths : w.length.size = v.length.size
  sources : w.source.size = v.source.size
  settled : w.settled = v.settled
  remaining : w.remaining = v.remaining
  length : ∀ j, Option.Rel R (w.length.getD j none) (v.length.getD j none)
  source : ∀ j, w.source.getD j start = v.source.getD j start

structure Nearest.Follows (R : α → Int → Prop) (b : Nearest α) (c : Nearest Int) : Prop where
  place : b.place = c.place
  column : b.column = c.column
  distance : R b.distance c.distance

structure Found.Follows (R : α → Int → Prop) (start : Nat) (f : Found α) (g : Found Int) :
    Prop where
  column : f.column = g.column
  distance : R f.distance g.distance
  ways : f.ways.Follows R start g.ways

/-! ## The steps of a search -/

theorem rel_ite {β γ : Type} {r : β → γ → Prop} {c : Prop} [Decidable c] {x y : β} {x' y' : γ}
    (hx : r x x') (hy : r y y') : r (if c then x else y) (if c then x' else y') := by
  split
  · exact hx
  · exact hy

namespace Ways

variable {A : Arithmetic α} {R : α → Int → Prop} {limit : Int} {start : Nat}

theorem fresh_follows (R : α → Int → Prop) (n start : Nat) :
    Ways.Follows R start (fresh n start) (fresh n start) where
  lengths := Array.size_replicate.trans Array.size_replicate.symm
  sources := rfl
  settled := rfl
  remaining := rfl
  length := by
    intro j
    rw [fresh, fresh, getD_replicate, getD_replicate]
    exact .none
  source := fun _ => rfl

/-- Comparing with what is known of a way comes out the same. -/
theorem isShorter_follows (follows : A.Follows R limit) {x : α} {a : Int} (next : R x a)
    {l : Option α} {m : Option Int} (known : Option.Rel R l m) :
    isShorter A x l = isShorter .whole a m := by
  cases known with
  | none => exact follows.reachable x a next
  | some old => exact follows.less _ _ _ _ next old

theorem settle_follows {w : Ways α} {v : Ways Int} (h : w.Follows R start v) (place column : Nat) :
    (w.settle place column).Follows R start (v.settle place column) where
  lengths := h.lengths
  sources := h.sources
  settled := congrArg (column :: ·) h.settled
  remaining := by rw [settle, settle, h.remaining]
  length := h.length
  source := h.source

theorem consider_follows (follows : A.Follows R limit) {w : Ways α} {v : Ways Int}
    (h : w.Follows R start v) (isFree : Nat → Bool) (place : Nat) {b : Option (Nearest α)}
    {c : Option (Nearest Int)} (best : Option.Rel (Nearest.Follows R) b c) :
    Option.Rel (Nearest.Follows R) (consider A w isFree b place)
      (consider .whole v isFree c place) := by
  have known := h.length (v.remaining.getD place 0)
  unfold consider
  rw [h.remaining]
  generalize w.length.getD (v.remaining.getD place 0) none = l at known ⊢
  generalize v.length.getD (v.remaining.getD place 0) none = m at known ⊢
  cases known with
  | none => exact best
  | some d =>
    cases best with
    | none => exact .some ⟨rfl, rfl, d⟩
    | some b =>
      dsimp only
      rw [follows.less _ _ _ _ d b.distance, follows.less _ _ _ _ b.distance d]
      exact rel_ite (.some ⟨rfl, rfl, d⟩) (.some b)

/-- The same column is nearest. -/
theorem nearest_follows (follows : A.Follows R limit) {w : Ways α} {v : Ways Int}
    (h : w.Follows R start v) (isFree : Nat → Bool) :
    Option.Rel (Nearest.Follows R) (w.nearest A isFree) (v.nearest .whole isFree) := by
  rw [nearest_eq, nearest_eq, h.remaining]
  have whole (places : List Nat) {b : Option (Nearest α)} {c : Option (Nearest Int)}
      (best : Option.Rel (Nearest.Follows R) b c) :
      Option.Rel (Nearest.Follows R) (places.foldl (consider A w isFree) b)
        (places.foldl (consider .whole v isFree) c) := by
    induction places generalizing b c with
    | nil => exact best
    | cons place places ih => exact ih (consider_follows follows h isFree place best)
  exact whole _ .none

end Ways

/-! ## Within the limit -/

section

variable {A : Arithmetic α} {R : α → Int → Prop} {limit bound : Int} {n start : Nat}
  {rows : List Nat} {costs : Array (Array α)} {costs' : Array (Array Int)} {p : Stage α}
  {q : Stage Int} (follows : A.Follows R limit) (room : 16 * bound ≤ limit)
  (entries : ∀ i j, R (entry A costs i j) (entry .whole costs' i j))
  (within : Within costs' n bound) (h : q.Priced costs' n rows) (signs : q.Discounts rows)
  (hstart : start < n) (new : start ∉ rows) (same : p.Follows A R q)
include follows room entries within h signs hstart new same

/-- The length of a way comes out right. -/
theorem lengthBy_follows {row j : Nat} (hr : row < n) (hj : j < n) {x : α} {base : Int}
    (hbase : R x base) (range : -bound ≤ base ∧ base ≤ 3 * bound) :
    R (Ways.lengthBy A costs p row x j) (Ways.lengthBy .whole costs' q row base j) := by
  have cost := within row hr j hj
  have rowPrice := h.rowPrice_le within signs hstart new hr
  have columnPrice := h.columnPrice_le within signs hstart new hj
  have first := follows.plus _ _ _ _ hbase (entries row j) (by omega) (by omega)
  have second := follows.minus _ _ _ _ first (same.rowPrice row) (by omega) (by omega)
  exact follows.minus _ _ (base + entry .whole costs' row j - q.rowPrice.getD row 0)
    (q.columnPrice.getD j 0) second (same.columnPrice j) (by omega) (by omega)

/-- Extending all ways improves the same ones. -/
theorem Ways.extend_follows {w : Ways α} {v : Ways Int} (ways : w.Follows R start v)
    (sound : v.Sound n q start) {row : Nat} (hr : row < n) {x : α} {base : Int}
    (hbase : R x base) (range : -bound ≤ base ∧ base ≤ 3 * bound) :
    (w.extend A costs p row x).Follows R start (v.extend .whole costs' q row base) := by
  have columns := extend_columns A costs p row x w
  have columns' := extend_columns .whole costs' q row base v
  have distinct := (List.nodup_append.mp sound.distinct).1
  have after := way_extend A costs p row x start (w := w) (ways.remaining ▸ distinct)
    (fun j hj => by
      rw [ways.lengths, sound.lengths]
      exact sound.mem_iff.mp (.inl (ways.remaining ▸ hj)))
    (fun j hj => by
      rw [ways.sources, sound.sources]
      exact sound.mem_iff.mp (.inl (ways.remaining ▸ hj)))
  have after' := sound.way_extend .whole costs' row base
  have both (j : Nat) :
      Option.Rel R (way start (w.extend A costs p row x) j).1
        (way start (v.extend .whole costs' q row base) j).1 ∧
      (way start (w.extend A costs p row x) j).2 =
        (way start (v.extend .whole costs' q row base) j).2 := by
    rw [after, after', ways.remaining]
    split
    · next remains =>
      have next := lengthBy_follows follows room entries within h signs hstart new same hr
        (sound.mem_iff.mp (.inl remains)) hbase range
      have shorter : isShorter A _ (way start w j).1 = isShorter .whole _ (way start v j).1 :=
        isShorter_follows follows next (ways.length j)
      unfold improve
      rw [shorter]
      exact rel_ite (r := fun a b : Option _ × Nat => Option.Rel R a.1 b.1 ∧ a.2 = b.2)
        ⟨.some next, rfl⟩ ⟨ways.length j, ways.source j⟩
    · exact ⟨ways.length j, ways.source j⟩
  exact ⟨columns.lengths.trans (ways.lengths.trans columns'.lengths.symm),
    columns.sources.trans (ways.sources.trans columns'.sources.symm),
    columns.settled.trans (ways.settled.trans columns'.settled.symm),
    columns.remaining.trans (ways.remaining.trans columns'.remaining.symm),
    fun j => (both j).1, fun j => (both j).2⟩

/-- The same free column is met. -/
theorem findFree_follows (fuel : Nat) {row : Nat} (hr : row < n) {x : α} {base : Int}
    (hbase : R x base) (range : -bound ≤ base ∧ base ≤ 3 * bound) {w : Ways α} {v : Ways Int}
    (ways : w.Follows R start v) (sound : v.Sound n q start)
    (ranged : (v.extend .whole costs' q row base).Ranged costs' n bound q start) :
    Option.Rel (Found.Follows R start) (findFree A costs p fuel row x w)
      (findFree .whole costs' q fuel row base v) := by
  induction fuel generalizing row x base w v with
  | zero => exact .none
  | succ fuel ih =>
    have extended := Ways.extend_follows follows room entries within h signs hstart new same ways
      sound hr hbase range
    have near := Ways.nearest_follows follows extended fun j => (q.owner.getD j none).isNone
    unfold findFree
    dsimp only
    rw [same.owner]
    generalize hn : (v.extend .whole costs' q row base).nearest .whole
      (fun j => (q.owner.getD j none).isNone) = c at near ⊢
    generalize (w.extend A costs p row x).nearest A
      (fun j => (q.owner.getD j none).isNone) = b at near ⊢
    cases near with
    | none => exact .none
    | @some b c near =>
      have settled := Ways.settle_follows extended c.place c.column
      dsimp only
      rw [near.place, near.column]
      rcases owned : q.owner.getD c.column none with _ | next
      · exact .some ⟨rfl, near.distance, settled⟩
      · have stands := Ways.nearest_some hn
        have inside := ranged.range c.column (ranged.sound.mem_iff.mp (.inl stands.mem))
        rw [(Ways.nearest_between ranged.sound ranged.explored hn).1] at inside
        exact ih (h.inside next (h.matched.owned c.column next owned).1) near.distance inside
          settled (ranged.sound.settle stands owned)
          (ranged.step within h signs hstart new hn owned)

end

/-! ## The change of prices -/

section

variable {A : Arithmetic α} {R : α → Int → Prop} {limit bound : Int} {n start : Nat}
  {costs' : Array (Array Int)} {q : Stage Int} {f : Found α} {g : Found Int}

/-- The way to every column has a length, and it comes out right. -/
theorem Found.Follows.exists_lengths (found : f.Follows R start g)
    (shortest : g.Shortest costs' n q start) : ∃ d : Nat → α, ∀ j < n,
      f.ways.length.getD j none = some (d j) ∧ R (d j) (g.ways.distance j) := by
  refine ⟨fun j => (f.ways.length.getD j none).getD f.distance, fun j hj => ?_⟩
  have length := found.ways.length j
  dsimp only
  rw [shortest.known j hj] at length
  generalize f.ways.length.getD j none = l at length ⊢
  cases length with
  | some x => exact ⟨rfl, x⟩

/-- The free column is as near as the bounds of all ways say. -/
theorem Found.Shortest.distance_between (shortest : g.Shortest costs' n q start)
    (sound : g.Sound n q start)
    (range : ∀ j < n, -bound ≤ g.ways.distance j ∧ g.ways.distance j ≤ 3 * bound) :
    -bound ≤ g.distance ∧ g.distance ≤ 3 * bound := by
  obtain ⟨others, settled, -⟩ := sound.settled
  exact shortest.here ▸ range g.column (sound.inside g.column (settled ▸ List.mem_cons_self))

/-- How much nearer a column is than the free one comes out right. -/
theorem slack_follows (follows : A.Follows R limit) (room : 16 * bound ≤ limit)
    (found : f.Follows R start g) (free : -bound ≤ g.distance ∧ g.distance ≤ 3 * bound) {j : Nat}
    {x : α} (known : R x (g.ways.distance j))
    (range : -bound ≤ g.ways.distance j ∧ g.ways.distance j ≤ 3 * bound) :
    R (A.minus f.distance x) (g.distance - g.ways.distance j) :=
  follows.minus _ _ _ _ found.distance known (by omega) (by omega)

end

section

variable {A : Arithmetic α} {R : α → Int → Prop} {limit bound : Int} {n start : Nat}
  {rows : List Nat} {costs' : Array (Array Int)} {p : Stage α} {q : Stage Int} {f : Found α}
  {g : Found Int} {d : Nat → α} (follows : A.Follows R limit) (room : 16 * bound ≤ limit)
  (within : Within costs' n bound) (h : q.Priced costs' n rows) (signs : q.Discounts rows)
  (hstart : start < n) (new : start ∉ rows) (same : p.Follows A R q)
  (found : f.Follows R start g) (sound : g.Sound n q start)
  (shortest : g.Shortest costs' n q start)
  (range : ∀ j < n, -bound ≤ g.ways.distance j ∧ g.ways.distance j ≤ 3 * bound)
  (known : ∀ j < n, f.ways.length.getD j none = some (d j) ∧ R (d j) (g.ways.distance j))
include follows room within h signs hstart new same found sound shortest range

section

include known

/-- The price of a row changes in the same way. -/
theorem Stage.rowPrice_follows {i : Nat} (hi : i < n) :
    R ((p.reprice A start f).rowPrice.getD i A.zero)
      ((q.reprice .whole start g).rowPrice.getD i 0) := by
  have only (j : Nat) (owned : q.owner.getD j none = some i) : j = q.columnOf.getD i 0 :=
    (h.matched.owned j i owned).2.symm
  have distinct : f.ways.settled.Nodup := found.ways.settled ▸ sound.distinct
  have changed := rowPrice_reprice (A := A) distinct
    (fun j hj => (known j (sound.inside j (found.ways.settled ▸ hj))).1)
    (fun j _ i owned => by
      rw [same.rows, h.rowPrices]
      exact h.inside i (h.matched.owned j i (same.owner ▸ owned)).1)
    (by rw [same.rows, h.rowPrices]; exact hstart) (same.owner.symm ▸ only)
  have changed' : (q.reprice .whole start g).rowPrice.getD i 0 =
      if q.columnOf.getD i 0 ∈ g.ways.settled ∧
          q.owner.getD (q.columnOf.getD i 0) none = some i then
        (if start = i then q.rowPrice.getD i 0 + g.distance else q.rowPrice.getD i 0) +
          (g.distance - g.ways.distance (q.columnOf.getD i 0))
      else if start = i then q.rowPrice.getD i 0 + g.distance else q.rowPrice.getD i 0 :=
    rowPrice_reprice sound.distinct (fun j hj => shortest.known j (sound.inside j hj))
      (fun j _ i owned => h.rowPrices ▸ h.inside i (h.matched.owned j i owned).1)
      (h.rowPrices ▸ hstart) only
  have price := h.rowPrice_le within signs hstart new hi
  have free := shortest.distance_between sound range
  have first : R (if start = i then A.plus (p.rowPrice.getD i A.zero) f.distance
        else p.rowPrice.getD i A.zero)
      (if start = i then q.rowPrice.getD i 0 + g.distance else q.rowPrice.getD i 0) :=
    rel_ite (follows.plus _ _ _ _ (same.rowPrice i) found.distance (by omega) (by omega))
      (same.rowPrice i)
  have between : -bound + -bound ≤
        (if start = i then q.rowPrice.getD i 0 + g.distance else q.rowPrice.getD i 0) ∧
      (if start = i then q.rowPrice.getD i 0 + g.distance else q.rowPrice.getD i 0) ≤
        4 * bound := by
    split <;> omega
  rw [changed, changed', found.ways.settled, same.owner]
  split
  · next settled =>
    have inside := sound.inside _ settled.1
    have := range _ inside
    exact follows.plus _ _ _ _ first
      (slack_follows follows room found free (known _ inside).2 (range _ inside)) (by omega)
      (by omega)
  · exact first

/-- The price of a column changes in the same way. -/
theorem Stage.columnPrice_follows (j : Nat) :
    R ((p.reprice A start f).columnPrice.getD j A.zero)
      ((q.reprice .whole start g).columnPrice.getD j 0) := by
  have distinct : f.ways.settled.Nodup := found.ways.settled ▸ sound.distinct
  have changed := columnPrice_reprice (A := A) (q := p) start distinct
    (fun j hj => (known j (sound.inside j (found.ways.settled ▸ hj))).1)
    (fun j hj => by
      rw [same.columns, h.columnPrices]
      exact sound.inside j (found.ways.settled ▸ hj)) j
  have free := shortest.distance_between sound range
  rw [changed, columnPrice_lowered h sound shortest, found.ways.settled]
  split
  · next settled =>
    have inside := sound.inside j settled
    have price := h.columnPrice_le within signs hstart new inside
    have := range j inside
    exact follows.minus _ _ _ _ (same.columnPrice j)
      (slack_follows follows room found free (known _ inside).2 (range _ inside)) (by omega)
      (by omega)
  · exact same.columnPrice j

end

/-- The prices change in the same way. -/
theorem Stage.reprice_follows : (p.reprice A start f).Follows A R (q.reprice .whole start g) := by
  obtain ⟨d, known⟩ := found.exists_lengths shortest
  have p_owners := reprice_owners (A := A) p start f
  have q_owners := reprice_owners (A := .whole) q start g
  refine ⟨?_, ?_, ?_, ?_, fun i => ?_, columnPrice_follows follows room within h signs hstart new
    same found sound shortest range known⟩
  · rw [p_owners.owner, q_owners.owner, same.owner]
  · rw [p_owners.columnOf, q_owners.columnOf, same.columnOf]
  · rw [p_owners.rows, q_owners.rows, same.rows]
  · rw [p_owners.columns, q_owners.columns, same.columns]
  · by_cases hi : i < n
    · exact rowPrice_follows follows room within h signs hstart new same found sound shortest
        range known hi
    · rw [getD_of_size_le _ _ _ (by rw [p_owners.rows, same.rows, h.rowPrices]; omega),
        getD_of_size_le _ _ _ (by rw [q_owners.rows, h.rowPrices]; omega)]
      exact follows.zero

end

/-! ## Whole runs -/

section

variable {A : Arithmetic α} {R : α → Int → Prop} {limit bound : Int} {start : Nat}
  {rows : List Nat} {costs : Array (Array α)} {costs' : Array (Array Int)} {p : Stage α}
  {q : Stage Int}

/-- Columns are handed on in the same way. -/
theorem Stage.reassign_follows {source source' : Array Nat}
    (sources : ∀ j, source.getD j start = source'.getD j start) (fuel column : Nat)
    (same : p.Follows A R q) :
    (reassign source start fuel column p).Follows A R (reassign source' start fuel column q) := by
  have given (row column : Nat) {p : Stage α} {q : Stage Int} (same : p.Follows A R q) :
      (p.give row column).Follows A R (q.give row column) := by
    refine ⟨?_, ?_, same.rows, same.columns, same.rowPrice, same.columnPrice⟩
    · rw [give, give, same.owner]
    · rw [give, give, same.columnOf]
  induction fuel generalizing column p q with
  | zero => exact same
  | succ fuel ih =>
    rw [reassign_succ, reassign_succ, sources, same.columnOf]
    exact rel_ite (given _ column same) (ih _ (given _ column same))

variable (follows : A.Follows R limit) (room : 16 * bound ≤ limit)
  (size : costs.size = costs'.size)
  (entries : ∀ i j, R (entry A costs i j) (entry .whole costs' i j))
  (within : Within costs' costs'.size bound)
include follows room size entries within

/-- A row is taken up in the same way. -/
theorem Stage.takeUp_follows (h : q.Priced costs' costs'.size rows) (signs : q.Discounts rows)
    (hstart : start < costs'.size) (new : start ∉ rows) (same : p.Follows A R q) :
    Option.Rel (Stage.Follows A R) (p.takeUp A costs start) (q.takeUp .whole costs' start) := by
  have some_entry := within start hstart start hstart
  have searched := findFree_follows follows room entries within h signs hstart new same
    costs'.size hstart follows.zero (by omega)
    (Ways.fresh_follows R costs'.size start) (Ways.fresh_sound costs'.size q start)
    (Ways.ranged_first within h signs hstart new)
  unfold takeUp
  dsimp only
  rw [size]
  generalize hg : findFree .whole costs' q costs'.size start 0 (.fresh costs'.size start) = g
    at searched
  rw [show Arithmetic.whole.zero = (0 : Int) from rfl, hg]
  generalize findFree A costs p costs'.size start A.zero (.fresh costs'.size start) = f
    at searched ⊢
  cases searched with
  | none => exact .none
  | @some f g found =>
    obtain ⟨sound, shortest, range⟩ := findFree_bounded within h signs hstart new hg
    have repriced := reprice_follows follows room within h signs hstart new same found sound
      shortest range
    rw [Option.map_some, Option.map_some, found.column]
    exact .some (reassign_follows found.ways.source costs'.size g.column repriced)

/-- All rows are taken up in the same way. -/
theorem Stage.takeUpAll_follows (todo : List Nat) (fresh : (todo.reverse ++ rows).Nodup)
    (inside : ∀ i ∈ todo.reverse ++ rows, i < costs'.size) (h : q.Priced costs' costs'.size rows)
    (signs : q.Discounts rows) (same : p.Follows A R q) :
    Option.Rel (Stage.Follows A R) (p.takeUpAll A costs todo) (q.takeUpAll .whole costs' todo) := by
  induction todo generalizing rows p q with
  | nil => exact .some same
  | cons start todo ih =>
    rw [List.reverse_cons, List.append_assoc, List.singleton_append] at fresh inside
    have hstart := inside start (List.mem_append_right _ List.mem_cons_self)
    have new := (List.nodup_cons.mp (List.nodup_append.mp fresh).2.1).1
    have first := takeUp_follows follows room size entries within h signs hstart new same
    unfold takeUpAll
    generalize hq : q.takeUp .whole costs' start = q' at first ⊢
    generalize p.takeUp A costs start = p' at first ⊢
    cases first with
    | none => exact .none
    | some first =>
      exact ih fresh inside (takeUp_priced hstart new h hq)
        (takeUp_discounts hstart new h signs hq) first

end

theorem getD_of_forall {β : Type} {P : β → Prop} {xs : List β} (h : ∀ x ∈ xs, P x) {d : β}
    (default : P d) (i : Nat) : P (xs.getD i d) := by
  rw [List.getD_eq_getElem?_getD]
  rcases found : xs[i]? with _ | x
  · exact default
  · exact h x (List.mem_of_getElem? found)

theorem getD_of_forall₂ {β γ : Type} {r : β → γ → Prop} {xs : List β} {ys : List γ}
    (h : List.Forall₂ r xs ys) {d : β} {e : γ} (default : r d e) (i : Nat) :
    r (xs.getD i d) (ys.getD i e) := by
  induction h generalizing i with
  | nil => exact default
  | cons first _ ih =>
    cases i with
    | zero => exact first
    | succ i => exact ih i

theorem noStage_follows {A : Arithmetic α} {R : α → Int → Prop} (zero : R A.zero 0) (n : Nat) :
    (noStage A n).Follows A R (noStage .whole n) where
  owner := rfl
  columnOf := rfl
  rows := Array.size_replicate.trans Array.size_replicate.symm
  columns := Array.size_replicate.trans Array.size_replicate.symm
  rowPrice := by
    intro i
    rw [noStage, getD_replicate]
    exact (getD_replicate (α := Int) i 0 n).symm ▸ zero
  columnPrice := by
    intro j
    rw [noStage, getD_replicate]
    exact (getD_replicate (α := Int) j 0 n).symm ▸ zero

theorem noStage_discounts (n : Nat) : (noStage .whole n).Discounts [] where
  untaken := fun i _ => getD_replicate i 0 n
  free := fun j _ => getD_replicate j 0 n
  nonpos := fun j => Int.le_of_eq (getD_replicate j 0 n)

/-- The same assignment is proposed. -/
theorem propose_follows {A : Arithmetic α} {R : α → Int → Prop} {limit : Int} (bound : Int)
    (follows : A.Follows R limit) (room : 16 * bound ≤ limit) {table : List (List α)}
    {costs : Costs} (related : List.Forall₂ (List.Forall₂ R) table costs)
    (within : ∀ row ∈ costs, ∀ c ∈ row, -bound ≤ c ∧ c ≤ bound) (positive : 0 ≤ bound) :
    (propose A table).map (·.columns) = (propose .whole costs).map (·.columns) := by
  have length : table.length = costs.length := related.length_eq
  have size := size_toArray costs
  have entries (i j : Nat) : R (entry A (table.map List.toArray).toArray i j)
      (entry .whole (costs.map List.toArray).toArray i j) := by
    rw [entry_toArray, entry_toArray]
    exact getD_of_forall₂ (getD_of_forall₂ related .nil i) follows.zero j
  have bounded : Within (costs.map List.toArray).toArray
      (costs.map List.toArray).toArray.size bound := by
    intro i _ j _
    rw [entry_toArray]
    exact getD_of_forall (getD_of_forall within (fun c hc => absurd hc List.not_mem_nil) i)
      ⟨Int.neg_nonpos_of_nonneg positive, positive⟩ j
  have all := Stage.takeUpAll_follows follows room
    (by rw [size_toArray, size_toArray, length]) entries bounded (List.range costs.length)
    (by simp [List.nodup_range]) (by simp) (noStage_priced _) (noStage_discounts _)
    (noStage_follows follows.zero _)
  rw [propose_eq, propose_eq, length]
  rw [size] at all
  generalize (noStage A costs.length).takeUpAll A _ _ = p at all ⊢
  generalize (noStage .whole costs.length).takeUpAll .whole _ _ = q at all ⊢
  cases all with
  | none => rfl
  | some same => exact congrArg (fun columns => some columns.toList) same.columnOf

end SchemaDrift.Assignment
