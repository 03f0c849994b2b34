import Mathlib
import SchemaDrift.Proofs.Memo

/-!
# A memo holds what was used last

The history of a memo is told by events. Of the calls for a value, those that come to one are the
uses of their keys, each at the time at which it ends. A memo with room for `n` entries holds the
`n` keys that were used last, in that order, and each with the value that was computed for it last.

A call may be made by the computation of another one, and any of them may fail: such computations
are the trees of `Usage`.

* `Memo.recent` and `Memo.latest` read the keys and their values off a history.
* `Memo.Recalls` says that a memo is as its history asks, `Memo.Recalls.hit`, `Memo.Recalls.miss`
  and `Memo.Recalls.store` that looking up and storing keep it so.
* `Memo.perform` makes the calls of a `Usage` and writes down every moment.
* `Memo.perform_recalls` is the invariant along all moments, `Memo.fetch_least_recently_used` the
  whole.
-/

namespace SchemaDrift.Memo

/-! ## Histories -/

/-- What happens to a memo. A call for the value of a key starts, and finds its key or misses it. In
the second case a computation is made and ends, with a value or without, and so does the call. -/
inductive Event (κ ν : Type) where
  | started (key : κ)
  | found (key : κ) (value : ν)
  | missed (key : κ)
  | ended (key : κ) (value? : Option ν)
  | computed (key : κ) (value : ν)
  | failed (key : κ)

namespace Event

variable {κ ν : Type}

/-- The key that is used, if the event ends a call that comes to a value. -/
def used? : Event κ ν → Option κ
  | .found key _ => some key
  | .computed key _ => some key
  | _ => none

def computedFor? [BEq κ] (key : κ) : Event κ ν → Option ν
  | .computed k v => if k == key then some v else none
  | _ => none

def isFound : Event κ ν → Bool
  | .found _ _ => true
  | _ => false

def isMissed : Event κ ν → Bool
  | .missed _ => true
  | _ => false

def isIdle : Event κ ν → Bool
  | .started _ | .ended _ _ | .failed _ => true
  | _ => false

end Event

variable {κ ν : Type} [BEq κ]

/-- The keys that were used, each once, the last one first. -/
def recent (history : List (Event κ ν)) : List κ :=
  (history.filterMap Event.used?).reverse.eraseDups

/-- The value that was computed last for a key. -/
def latest (history : List (Event κ ν)) (key : κ) : Option ν :=
  (history.filterMap (Event.computedFor? key)).getLast?

/-- A memo is as its history asks: it holds the keys that were used last, as many as it has room
for, with the values that were computed last, and its counts are those of the calls. -/
structure Recalls (capacity : Nat) (history : List (Event κ ν)) (m : Memo κ ν) (calls : Nat) :
    Prop where
  room : m.capacity = capacity
  keys : m.entries.map Prod.fst = (recent history).take capacity
  values : ∀ key v, (key, v) ∈ m.entries → latest history key = some v
  hits : m.hits = history.countP Event.isFound
  misses : m.misses = history.countP Event.isMissed
  total : m.hits + m.misses = calls

/-! ## Lists without repetitions -/

section

variable [LawfulBEq κ]

theorem eraseDups_filter (p : κ → Bool) : ∀ ks : List κ,
    (ks.filter p).eraseDups = ks.eraseDups.filter p
  | [] => rfl
  | k :: ks => by
    have shorter : (ks.filter fun other => !other == k).length < ks.length + 1 :=
      Nat.lt_succ_of_le (List.length_filter_le _ _)
    have rest := eraseDups_filter p (ks.filter fun other => !other == k)
    rw [List.filter_filter] at rest
    by_cases kept : p k = true
    · simp only [List.filter_cons_of_pos kept, List.eraseDups_cons, List.filter_filter, ← rest,
        Bool.and_comm]
    · rw [List.filter_cons_of_neg kept, List.eraseDups_cons, List.filter_cons_of_neg kept, ← rest]
      congr 1
      refine List.filter_congr fun other _ => ?_
      by_cases same : other = k
      · simp [same, kept]
      · simp [same]
termination_by ks => ks.length

theorem nodup_eraseDups : ∀ ks : List κ, ks.eraseDups.Nodup
  | [] => by simp
  | k :: ks => by
    have shorter : (ks.filter fun other => !other == k).length < ks.length + 1 :=
      Nat.lt_succ_of_le (List.length_filter_le _ _)
    rw [List.eraseDups_cons, List.nodup_cons]
    refine ⟨fun again => ?_, nodup_eraseDups _⟩
    simpa using (List.mem_filter.mp (List.mem_eraseDups.mp again)).2
termination_by ks => ks.length

/-- Of a list without repetitions, what stands beyond the first `n + 1` entries is not among the
first `n` after one key is taken out. -/
theorem take_filter {ks : List κ} (distinct : ks.Nodup) (key : κ) (n : Nat) :
    ((ks.take (n + 1)).filter fun other => !other == key).take n =
      (ks.filter fun other => !other == key).take n := by
  induction ks generalizing n with
  | nil => rfl
  | cons k ks ih =>
    obtain ⟨fresh, distinct⟩ := List.nodup_cons.mp distinct
    rw [List.take_succ_cons]
    by_cases same : k = key
    · subst same
      have others {l : List κ} (h : k ∉ l) : l.filter (fun other => !other == k) = l := by
        refine List.filter_eq_self.mpr fun other member => ?_
        have : other ≠ k := fun same => h (same ▸ member)
        simp [this]
      have early : k ∉ ks.take n := fun member => fresh (List.mem_of_mem_take member)
      rw [List.filter_cons_of_neg (by simp), List.filter_cons_of_neg (by simp), others early,
        others fresh, List.take_take, Nat.min_self]
    · rw [List.filter_cons_of_pos (by simp [same]), List.filter_cons_of_pos (by simp [same])]
      cases n with
      | zero => rfl
      | succ n => rw [List.take_succ_cons, List.take_succ_cons, ih distinct n]

theorem take_used {ks : List κ} (distinct : ks.Nodup) (key : κ) (n : Nat) :
    (key :: (ks.take n).filter fun other => !other == key).take n =
      (key :: ks.filter fun other => !other == key).take n := by
  cases n with
  | zero => rfl
  | succ n => rw [List.take_succ_cons, List.take_succ_cons, take_filter distinct]

/-- The entries without the one of a key, in their order. -/
theorem dropKey_eq (key : κ) (entries : List (κ × ν)) :
    dropKey key entries = entries.filter fun e => !e.1 == key := by
  induction entries with
  | nil => rfl
  | cons e rest ih =>
    rw [dropKey, ih]
    by_cases same : e.1 = key <;> simp [same]

theorem keys_dropKey (key : κ) (entries : List (κ × ν)) :
    (dropKey key entries).map Prod.fst =
      (entries.map Prod.fst).filter fun other => !other == key := by
  rw [dropKey_eq, List.filter_map]
  rfl

end

/-! ## Longer histories -/

section

variable {history : List (Event κ ν)} {event : Event κ ν}

theorem recent_of_unused (h : event.used? = none) :
    recent (history ++ [event]) = recent history := by
  simp [recent, List.filterMap_append, h]

theorem recent_of_used [LawfulBEq κ] {key : κ} (h : event.used? = some key) :
    recent (history ++ [event]) = key :: (recent history).filter fun other => !other == key := by
  have last : ([event] : List (Event κ ν)).filterMap Event.used? = [key] := by simp [h]
  rw [recent, List.filterMap_append, last, List.reverse_append, List.reverse_singleton,
    List.singleton_append, List.eraseDups_cons, eraseDups_filter, recent]

theorem latest_of_none {key : κ} (h : event.computedFor? key = none) :
    latest (history ++ [event]) key = latest history key := by
  simp [latest, List.filterMap_append, h]

theorem latest_of_some {key : κ} {v : ν} (h : event.computedFor? key = some v) :
    latest (history ++ [event]) key = some v := by
  simp [latest, List.filterMap_append, h]

theorem nodup_recent [LawfulBEq κ] (history : List (Event κ ν)) : (recent history).Nodup :=
  nodup_eraseDups _

end

/-! ## What the operations do to a memo -/

namespace Recalls

variable {capacity calls : Nat} {history : List (Event κ ν)} {m m' : Memo κ ν} {key : κ} {v : ν}

theorem empty : Recalls capacity [] (Memo.empty capacity : Memo κ ν) 0 where
  room := rfl
  keys := by simp [Memo.empty, recent]
  values := fun _ _ h => nomatch h
  hits := rfl
  misses := rfl
  total := rfl

/-- A memo is never larger than its capacity. -/
theorem size_le (h : Recalls capacity history m calls) : m.size ≤ capacity := by
  have length := congrArg List.length h.keys
  rw [List.length_map, List.length_take] at length
  exact length.trans_le (Nat.min_le_left _ _)

/-- Neither the start of a call nor the end of a computation nor a failure changes the memo. -/
theorem idle (h : Recalls capacity history m calls) {event : Event κ ν}
    (idle : event.isIdle = true) : Recalls capacity (history ++ [event]) m calls := by
  have unused : event.used? = none := by cases event <;> first | rfl | exact nomatch idle
  have uncomputed (other : κ) : event.computedFor? other = none := by
    cases event <;> first | rfl | exact nomatch idle
  have uncounted : event.isFound = false ∧ event.isMissed = false := by
    cases event <;> first | exact ⟨rfl, rfl⟩ | exact nomatch idle
  refine ⟨h.room, ?_, fun other w held => ?_, ?_, ?_, h.total⟩
  · rw [recent_of_unused unused, h.keys]
  · rw [latest_of_none (uncomputed other), h.values other w held]
  · simp [List.countP_append, uncounted.1, h.hits]
  · simp [List.countP_append, uncounted.2, h.misses]

/-- A look-up that misses counts, and changes no entry. -/
theorem miss (h : Recalls capacity history m calls) (look : m.lookUp key = (none, m')) :
    Recalls capacity (history ++ [.missed key]) m' (calls + 1) := by
  unfold lookUp at look
  split at look
  · exact nomatch (Prod.mk.inj look).1
  · obtain rfl := (Prod.mk.inj look).2
    refine ⟨h.room, ?_, fun other w held => ?_, ?_, ?_, ?_⟩
    · rw [recent_of_unused rfl, h.keys]
    · rw [latest_of_none rfl, h.values other w held]
    · simp [List.countP_append, Event.isFound, h.hits]
    · simp [List.countP_append, Event.isMissed, h.misses]
    · have := h.total
      dsimp only
      omega

variable [LawfulBEq κ]

/-- A look-up that finds its key makes it the last one used. -/
theorem hit (h : Recalls capacity history m calls) (look : m.lookUp key = (some v, m')) :
    Recalls capacity (history ++ [.found key v]) m' (calls + 1) := by
  unfold lookUp at look
  split at look
  · next w found =>
    obtain ⟨value, rfl⟩ := Prod.mk.inj look
    obtain rfl : w = v := Option.some.inj value
    have entry := Fields.mem_of_lookup found
    refine ⟨h.room, ?_, fun other u held => ?_, ?_, ?_, ?_⟩
    · -- The key was held already, so nothing is driven out.
      have held : key ∈ (recent history).take capacity := by
        rw [← h.keys]
        exact List.mem_map_of_mem (f := Prod.fst) entry
      have fits : (key :: ((recent history).take capacity).filter fun other => !other == key).length
          ≤ capacity := by
        have fewer : (((recent history).take capacity).filter fun other => !other == key).length <
            ((recent history).take capacity).length :=
          List.length_filter_lt_length_iff_exists.mpr ⟨key, held, by simp⟩
        exact Nat.succ_le_of_lt (fewer.trans_le (List.length_take_le _ _))
      rw [recent_of_used rfl, ← take_used (nodup_recent history), List.take_of_length_le fits,
        List.map_cons, keys_dropKey, h.keys]
    · rw [latest_of_none rfl]
      rcases List.mem_cons.mp held with same | held
      · obtain ⟨rfl, rfl⟩ := Prod.mk.inj same
        exact h.values _ _ entry
      · exact h.values _ _ (mem_of_mem_dropKey held)
    · simp [List.countP_append, Event.isFound, h.hits]
    · simp [List.countP_append, Event.isMissed, h.misses]
    · have := h.total
      dsimp only
      omega
  · exact nomatch (Prod.mk.inj look).1

/-- Storing a computed value succeeds, makes its key the last one used and drives out what no
longer fits. -/
theorem store (h : Recalls capacity history m calls) (room : 1 ≤ capacity) (key : κ) (v : ν) :
    ∃ m', m.store key v = some m' ∧ Recalls capacity (history ++ [.computed key v]) m' calls := by
  have some_room : m.capacity ≠ 0 := by
    rw [h.room]
    exact Nat.one_le_iff_ne_zero.mp room
  refine ⟨_, if_neg some_room, h.room, ?_, fun other w held => ?_, ?_, ?_, h.total⟩
  · rw [List.map_take, List.map_cons, keys_dropKey, h.keys, h.room, recent_of_used rfl,
      take_used (nodup_recent history)]
  · rcases List.mem_cons.mp (List.mem_of_mem_take held) with same | held
    · obtain ⟨rfl, rfl⟩ := Prod.mk.inj same
      exact latest_of_some (by simp [Event.computedFor?])
    · rw [dropKey_eq, List.mem_filter] at held
      have apart : (key == other) = false := by
        have := held.2
        grind
      rw [latest_of_none (by simp [Event.computedFor?, apart]), h.values other w held.1]
  · simp [List.countP_append, Event.isFound, h.hits]
  · simp [List.countP_append, Event.isMissed, h.misses]

end Recalls

theorem fst_lookUp (m : Memo κ ν) (key : κ) : (m.lookUp key).1 = m.entries.lookup key := by
  unfold lookUp
  split <;> simp [*]

/-! ## Calls that make calls -/

/-- A computation that uses a memo: it comes to an end, or it asks for the value of a key, says what
is to be computed if the key is not held, and goes on with what the call comes to. -/
inductive Usage (κ ν ε : Type) where
  | ended (result : Except ε ν)
  | asks (key : κ) (compute : Usage κ ν ε) (next : Except ε ν → Usage κ ν ε)

/-- An event with the memo after it and the number of calls until then; a call that starts is
counted from its next event on. -/
structure Moment (κ ν : Type) where
  event : Event κ ν
  memo : Memo κ ν
  calls : Nat

/-- A session that uses a memo, counts the calls and writes down all moments. -/
abbrev Telling (κ ν ε α : Type) : Type := Session (Memo κ ν × Nat) (Moment κ ν) ε α

/-- The computation of a call that misses its key, with its begin and its end. -/
def telling {ε : Type} (key : κ) (compute : Telling κ ν ε ν) : Telling κ ν ε ν := fun (m, n) =>
  let (outcome, (m', n')) := compute (m, n)
  (⟨⟨.missed key, m, n⟩ :: outcome.emitted ++ [⟨.ended key outcome.result.toOption, m', n'⟩],
    outcome.result⟩, (m', n'))

/-- The event that ends a call. A call that told nothing has not made its computation. -/
def ending {ε : Type} (key : κ) (call : Outcome (Moment κ ν) ε ν) : Event κ ν :=
  match call.result with
  | .ok v => if call.emitted.isEmpty then .found key v else .computed key v
  | .error _ => .failed key

def call {ε : Type} (refusal : ε) (key : κ) (compute : Telling κ ν ε ν) :
    Telling κ ν ε (Except ε ν) := fun (m, n) =>
  let (outcome, (m', n')) := fetch refusal key (telling key compute) (m, n + 1)
  (⟨⟨.started key, m, n⟩ :: outcome.emitted ++ [⟨ending key outcome, m', n'⟩],
    .ok outcome.result⟩, (m', n'))

def perform {ε : Type} (refusal : ε) : Usage κ ν ε → Telling κ ν ε ν
  | .ended (.ok v) => Session.done v
  | .ended (.error e) => Session.fail e
  | .asks key compute next =>
    Session.bind (call refusal key (perform refusal compute)) fun result =>
      perform refusal (next result)

/-! ## What follows what -/

/-- The event that must come next: a call is answered at once if and only if its key is held, and a
computation that has ended closes its call. -/
def Moment.next? (now : Moment κ ν) : Option (Event κ ν) :=
  match now.event with
  | .started key =>
    match now.memo.entries.lookup key with
    | some v => some (.found key v)
    | none => some (.missed key)
  | .ended key (some v) => some (.computed key v)
  | .ended key none => some (.failed key)
  | _ => none

/-- The second moment is one that may come right after the first one. -/
def Moment.Leads (now later : Moment κ ν) : Prop :=
  ∀ event, now.next? = some event → later.event = event

/-- Every moment of a log leads to the next one, and the last one leaves nothing open. -/
structure Connected (log : List (Moment κ ν)) : Prop where
  leads : log.IsChain Moment.Leads
  closed : ∀ now ∈ log.getLast?, now.next? = none

theorem Connected.nil : Connected ([] : List (Moment κ ν)) := ⟨.nil, fun _ last => nomatch last⟩

theorem Connected.append {log more : List (Moment κ ν)} (h : Connected log) (k : Connected more) :
    Connected (log ++ more) := by
  refine ⟨List.isChain_append.mpr ⟨h.leads, k.leads, fun now last later _ event must => ?_⟩, ?_⟩
  · rw [h.closed now last] at must
    exact nomatch must
  · intro now last
    rw [List.getLast?_append] at last
    rcases late : more.getLast? with _ | other
    · rw [late] at last
      exact h.closed now last
    · rw [late] at last
      exact k.closed now (late ▸ last)

theorem Connected.pair {now later : Moment κ ν} (leads : now.Leads later) (h : later.next? = none) :
    Connected [now, later] :=
  ⟨List.isChain_pair.mpr leads, fun _ last => by cases last; exact h⟩

/-- The log of a computation stands between its begin and its end, which the closing event
follows. -/
theorem Connected.framed {first begun ended close : Moment κ ν} {log : List (Moment κ ν)}
    (h : Connected log) (leads : first.Leads begun) (nothing : begun.next? = none)
    (ends : Connected [ended, close]) : Connected (first :: begun :: log ++ [ended, close]) := by
  have single : Connected [begun] :=
    ⟨List.isChain_singleton _, fun _ last => by cases last; exact nothing⟩
  have inner : Connected ([begun] ++ log ++ [ended, close]) := (single.append h).append ends
  refine ⟨List.isChain_cons_cons.mpr ⟨leads, inner.leads⟩, fun now last => inner.closed now ?_⟩
  simpa using last

/-! ## The invariant along a run -/

/-- After every moment of a log the memo is as the history asks, which goes on from `past`. -/
def Told (capacity : Nat) : List (Event κ ν) → List (Moment κ ν) → Prop
  | _, [] => True
  | past, now :: after =>
    Recalls capacity (past ++ [now.event]) now.memo now.calls ∧
      Told capacity (past ++ [now.event]) after

theorem told_append {capacity : Nat} {past : List (Event κ ν)} {log more : List (Moment κ ν)} :
    Told capacity past (log ++ more) ↔
      Told capacity past log ∧ Told capacity (past ++ log.map Moment.event) more := by
  induction log generalizing past with
  | nil => simp [Told]
  | cons now log ih =>
    rw [List.cons_append, Told, Told, ih, and_assoc, List.append_assoc, List.singleton_append,
      List.map_cons]

/-- A session keeps a memo in step with its history. -/
def Keeps {ε α : Type} (capacity : Nat) (f : Telling κ ν ε α) : Prop :=
  ∀ past m n log result m' n', Recalls capacity past m n →
    f (m, n) = (⟨log, result⟩, (m', n')) →
      Told capacity past log ∧ Connected log ∧
        Recalls capacity (past ++ log.map Moment.event) m' n'

section

variable {ε α β : Type} {capacity : Nat} {past : List (Event κ ν)}

namespace Keeps

theorem done (x : α) : Keeps capacity (Session.done x : Telling κ ν ε α) := by
  rintro past m n log result m' n' h run
  cases run
  exact ⟨trivial, .nil, by simpa using h⟩

theorem fail (e : ε) : Keeps capacity (Session.fail e : Telling κ ν ε α) := by
  rintro past m n log result m' n' h run
  cases run
  exact ⟨trivial, .nil, by simpa using h⟩

theorem bind {f : Telling κ ν ε α} {g : α → Telling κ ν ε β} (hf : Keeps capacity f)
    (hg : ∀ x, Keeps capacity (g x)) : Keeps capacity (Session.bind f g) := by
  intro past m n log result m' n' h run
  unfold Session.bind at run
  rcases first : f (m, n) with ⟨⟨early, e | x⟩, m₁, n₁⟩
  · rw [first] at run
    cases run
    exact hf _ _ _ _ _ _ _ h first
  · rw [first] at run
    rcases second : g x (m₁, n₁) with ⟨⟨late, r⟩, m₂, n₂⟩
    simp only [second] at run
    cases run
    obtain ⟨told, connected, recalls⟩ := hf _ _ _ _ _ _ _ h first
    obtain ⟨told', connected', recalls'⟩ := hg x _ _ _ _ _ _ _ recalls second
    refine ⟨told_append.mpr ⟨told, told'⟩, connected.append connected', ?_⟩
    rw [List.map_append, ← List.append_assoc]
    exact recalls'

end Keeps

section

variable {refusal : ε} {key : κ} {compute : Telling κ ν ε ν} {m m₁ m₂ m₃ : Memo κ ν}
  {n n' : Nat} {log : List (Moment κ ν)} {v : ν}

/-- A call that starts when its key is held leads to a find. -/
theorem leads_of_hit (look : m.lookUp key = (some v, m₁)) :
    Moment.Leads ⟨.started key, m, n⟩ ⟨.found key v, m₁, n'⟩ := by
  have held : m.entries.lookup key = some v := by rw [← fst_lookUp, look]
  intro event must
  simpa [Moment.next?, held] using must

/-- A call that starts when its key is not held leads to a miss. -/
theorem leads_of_miss (look : m.lookUp key = (none, m₁)) :
    Moment.Leads ⟨.started key, m, n⟩ ⟨.missed key, m₁, n'⟩ := by
  have absent : m.entries.lookup key = none := by rw [← fst_lookUp, look]
  intro event must
  simpa [Moment.next?, absent] using must

/-- A call that finds its key. -/
theorem call_found (look : m.lookUp key = (some v, m₁)) :
    call refusal key compute (m, n) =
      (⟨[⟨.started key, m, n⟩, ⟨.found key v, m₁, n + 1⟩], .ok (.ok v)⟩, (m₁, n + 1)) := by
  simp [call, fetch, look, ending]

/-- A call that misses its key, and whose computation fails. -/
theorem call_failed {e : ε} (look : m.lookUp key = (none, m₁))
    (run : compute (m₁, n + 1) = (⟨log, .error e⟩, (m₂, n'))) :
    call refusal key compute (m, n) =
      (⟨⟨.started key, m, n⟩ :: ⟨.missed key, m₁, n + 1⟩ :: log ++
        [⟨.ended key none, m₂, n'⟩, ⟨.failed key, m₂, n'⟩], .ok (.error e)⟩, (m₂, n')) := by
  simp [call, fetch, look, remember, telling, run, ending, Except.toOption]

/-- A call that misses its key, and whose computation comes to a value. -/
theorem call_computed (look : m.lookUp key = (none, m₁))
    (run : compute (m₁, n + 1) = (⟨log, .ok v⟩, (m₂, n'))) (stored : m₂.store key v = some m₃) :
    call refusal key compute (m, n) =
      (⟨⟨.started key, m, n⟩ :: ⟨.missed key, m₁, n + 1⟩ :: log ++
        [⟨.ended key (some v), m₂, n'⟩, ⟨.computed key v, m₃, n'⟩], .ok (.ok v)⟩, (m₃, n')) := by
  simp [call, fetch, look, remember, telling, run, stored, ending, Except.toOption]

end

variable [LawfulBEq κ] {refusal : ε} {key : κ}

/-- A call keeps a memo in step with its history if its computation does. -/
theorem Keeps.call (room : 1 ≤ capacity) {compute : Telling κ ν ε ν} (hc : Keeps capacity compute) :
    Keeps capacity (call refusal key compute) := by
  intro past m n log result m' n' h run
  have begun : Recalls capacity (past ++ [.started key]) m n := h.idle rfl
  rcases look : m.lookUp key with ⟨v | v, m₁⟩
  · have missed := begun.miss look
    rcases inner : compute (m₁, n + 1) with ⟨⟨made, e | v⟩, m₂, n₂⟩
    · obtain ⟨told, connected, recalls⟩ := hc _ _ _ _ _ _ _ missed inner
      have ended : Recalls capacity (_ ++ [.ended key none]) m₂ n₂ := recalls.idle rfl
      have failed : Recalls capacity (_ ++ [.failed key]) m₂ n₂ := ended.idle rfl
      rw [call_failed look inner] at run
      cases run
      exact ⟨⟨begun, missed, told_append.mpr ⟨told, ended, failed, trivial⟩⟩,
        connected.framed (leads_of_miss look) rfl (.pair (fun _ must => by cases must; rfl) rfl),
        by simpa using failed⟩
    · obtain ⟨told, connected, recalls⟩ := hc _ _ _ _ _ _ _ missed inner
      have ended : Recalls capacity (_ ++ [.ended key (some v)]) m₂ n₂ := recalls.idle rfl
      obtain ⟨m₃, stored, computed⟩ := ended.store room key v
      rw [call_computed look inner stored] at run
      cases run
      exact ⟨⟨begun, missed, told_append.mpr ⟨told, ended, computed, trivial⟩⟩,
        connected.framed (leads_of_miss look) rfl (.pair (fun _ must => by cases must; rfl) rfl),
        by simpa using computed⟩
  · rw [call_found look] at run
    cases run
    have found := begun.hit look
    exact ⟨⟨begun, found, trivial⟩, .pair (leads_of_hit look) rfl, by simpa using found⟩

/-- Along a run the memo is as its history asks at every moment. -/
theorem perform_recalls (room : 1 ≤ capacity) (usage : Usage κ ν ε) :
    Keeps capacity (perform refusal usage) := by
  induction usage with
  | ended result =>
    cases result with
    | ok v => exact .done v
    | error e => exact .fail e
  | asks key compute next ihCompute ihNext => exact .bind (.call room ihCompute) ihNext

end

/-- The entries of a memo are all told by its history. -/
theorem Recalls.entries_eq {capacity calls : Nat} {history : List (Event κ ν)} {m : Memo κ ν}
    (h : Recalls capacity history m calls) :
    m.entries.map (fun e => (e.1, some e.2)) =
      ((recent history).take capacity).map fun key => (key, latest history key) := by
  rw [← h.keys, List.map_map]
  refine List.map_congr_left fun e held => ?_
  rw [Function.comp_apply, h.values e.1 e.2 held]

/-- A failure leaves the entries as they are. -/
theorem Recalls.entries_of_failed {capacity calls calls' : Nat} {history : List (Event κ ν)}
    {key : κ} {m m' : Memo κ ν} (h : Recalls capacity history m calls)
    (h' : Recalls capacity (history ++ [.failed key]) m' calls') : m'.entries = m.entries := by
  have same := h'.entries_eq
  have unchanged : latest (history ++ [.failed key]) = latest history :=
    funext fun other => latest_of_none rfl
  rw [recent_of_unused rfl, unchanged, ← h.entries_eq] at same
  have injective : Function.Injective fun e : κ × ν => (e.1, some e.2) := fun e f pairs => by
    simpa [Prod.ext_iff] using pairs
  exact List.map_injective_iff.mpr injective same

section

variable [LawfulBEq κ] {ε : Type}

/-- From an empty memo with room for an entry, whatever calls are made, within one another or not:
at every moment, and at the end, the memo is as its history asks and no larger than its capacity. A
call finds its key if and only if the key is held when it starts, and is computed otherwise; its
computation stores the value that it comes to, and nothing if it fails. -/
theorem fetch_least_recently_used (refusal : ε) {capacity : Nat} (room : 1 ≤ capacity)
    (usage : Usage κ ν ε) :
    let run := perform refusal usage (Memo.empty capacity, 0)
    (∀ before now after, run.1.emitted = before ++ now :: after →
      Recalls capacity ((before ++ [now]).map Moment.event) now.memo now.calls ∧
        now.memo.size ≤ capacity) ∧
      Recalls capacity (run.1.emitted.map Moment.event) run.2.1 run.2.2 ∧
      Connected run.1.emitted ∧
      ∀ before last key m n after,
        run.1.emitted = before ++ last :: ⟨.failed key, m, n⟩ :: after →
          m.entries = last.memo.entries := by
  rcases made : perform refusal usage (Memo.empty capacity, 0) with ⟨⟨log, result⟩, m, n⟩
  obtain ⟨told, connected, recalls⟩ := perform_recalls room usage _ _ _ _ _ _ _ .empty made
  have always before now after (split : log = before ++ now :: after) :
      Recalls capacity ((before ++ [now]).map Moment.event) now.memo now.calls := by
    rw [split, told_append] at told
    simpa using told.2.1
  refine ⟨fun before now after split => ?_, by simpa using recalls, connected, ?_⟩
  · have here := always before now after split
    exact ⟨here, here.size_le⟩
  · intro before last key m n after (split : log = _)
    have earlier := always before last _ split
    have later := always (before ++ [last]) ⟨.failed key, m, n⟩ after (by simp [split])
    have closed : Recalls capacity ((before ++ [last]).map Moment.event ++ [.failed key]) m n := by
      simpa using later
    exact earlier.entries_of_failed closed

/-- The computation of `1` asks for `2` and, once more, for `1`; that of `3` fails; `2` is found;
and `4` drives out `1`. -/
def nestedUsage : Usage Nat Nat Unit :=
  .asks 1 (.asks 2 (.ended (.ok 20)) fun _ => .asks 1 (.ended (.ok 11)) fun _ => .ended (.ok 10))
    fun _ => .asks 3 (.ended (.error ())) fun _ => .asks 2 (.ended (.ok 21)) fun _ =>
      .asks 4 (.ended (.ok 40)) .ended

theorem fetch_least_recently_used_nested :
    let run := perform () nestedUsage (Memo.empty 2, 0)
    1 ≤ 2 ∧ Recalls 2 (run.1.emitted.map Moment.event) run.2.1 run.2.2 ∧
      recent (run.1.emitted.map Moment.event) = [4, 2, 1] ∧
      run.2.1.entries = [(4, 40), (2, 20)] ∧ run.2.1.hits = 1 ∧ run.2.2 = 6 := by
  have room : 1 ≤ 2 := by decide
  have whole := (fetch_least_recently_used () room nestedUsage).2.1
  exact ⟨room, whole, by decide +kernel, by decide +kernel, by decide +kernel, by decide +kernel⟩

end

end SchemaDrift.Memo
