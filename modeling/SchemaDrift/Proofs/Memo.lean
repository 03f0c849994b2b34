import Mathlib
import SchemaDrift.Memo
import SchemaDrift.Proofs.Fields
import SchemaDrift.Proofs.Outcome

/-!
# Memos that hold the right values

A memo is sound if every entry holds the right value of its key and there is room for one entry at
least. What is right does not change while the memo is in use, so looking up, storing and dropping
entries keep a memo sound.

* `Memo.mem_of_mem_lookUp` and `Memo.mem_of_mem_store` say which entries an operation may bring in.
* `Memo.Sound` is the invariant.
* `Memo.Sound.lookUp` and `Memo.Sound.store` say that the operations keep it.
* `Memo.tracks_fetch`: a value that is fetched from a sound memo is as good as computed.
-/

namespace SchemaDrift.Memo

variable {κ ν τ ω ε : Type} {right : κ → ν → Prop}

/-- A memo with room that holds right values only. -/
structure Sound (right : κ → ν → Prop) (m : Memo κ ν) : Prop where
  room : 1 ≤ m.capacity
  entries : ∀ e ∈ m.entries, right e.1 e.2

theorem sound_empty {capacity : Nat} (h : 1 ≤ capacity) :
    Sound right (empty capacity : Memo κ ν) :=
  ⟨h, fun _ he => nomatch he⟩

variable [BEq κ]

theorem mem_of_mem_dropKey {key : κ} {entries : List (κ × ν)} {e : κ × ν}
    (h : e ∈ dropKey key entries) : e ∈ entries := by
  induction entries with
  | nil => exact h
  | cons f rest ih =>
    unfold dropKey at h
    split at h
    · exact List.mem_cons_of_mem f (ih h)
    · rcases List.mem_cons.mp h with rfl | h
      · exact List.mem_cons_self
      · exact List.mem_cons_of_mem f (ih h)

variable {m : Memo κ ν}

/-- Looking up brings in no entry. -/
theorem mem_of_mem_lookUp [LawfulBEq κ] {key : κ} {e : κ × ν}
    (h : e ∈ (m.lookUp key).2.entries) : e ∈ m.entries := by
  unfold Memo.lookUp at h
  split at h
  · next v look =>
    rcases List.mem_cons.mp h with rfl | h
    · exact Fields.mem_of_lookup look
    · exact mem_of_mem_dropKey h
  · exact h

/-- Storing brings in one entry only. -/
theorem mem_of_mem_store {m' : Memo κ ν} {key : κ} {v : ν} (stored : m.store key v = some m')
    {e : κ × ν} (h : e ∈ m'.entries) : e = (key, v) ∨ e ∈ m.entries := by
  unfold Memo.store at stored
  split at stored
  · exact nomatch stored
  · obtain rfl := Option.some.inj stored
    exact (List.mem_cons.mp (List.mem_of_mem_take h)).imp_right mem_of_mem_dropKey

namespace Sound

/-- What a look-up finds is right. -/
theorem found [LawfulBEq κ] (hm : Sound right m) {key : κ} {v : ν}
    (h : (m.lookUp key).1 = some v) : right key v := by
  unfold Memo.lookUp at h
  split at h
  · next w look =>
    have : w = v := by simpa using h
    exact this ▸ hm.entries _ (Fields.mem_of_lookup look)
  · exact nomatch h

/-- Looking up keeps a memo sound. -/
theorem lookUp [LawfulBEq κ] (hm : Sound right m) (key : κ) : Sound right (m.lookUp key).2 := by
  refine ⟨?_, fun e he => hm.entries e (mem_of_mem_lookUp he)⟩
  unfold Memo.lookUp
  split <;> exact hm.room

/-- Storing a right value succeeds and keeps a memo sound. -/
theorem store (hm : Sound right m) {key : κ} {v : ν} (hv : right key v) :
    ∃ m', m.store key v = some m' ∧ Sound right m' := by
  have room : m.capacity ≠ 0 := Nat.one_le_iff_ne_zero.mp hm.room
  have stored : m.store key v =
      some { m with entries := ((key, v) :: dropKey key m.entries).take m.capacity } := if_neg room
  refine ⟨_, stored, hm.room, fun e he => ?_⟩
  rcases mem_of_mem_store stored he with rfl | he
  · exact hv
  · exact hm.entries e he

end Sound

section

open Session

variable {fault : ε → Prop} {base : Nat} {refusal : ε} {key : κ}
  {compute : Session (Memo κ ν × τ) ω ε ν} {p : Nat → Outcome ω ε ν}

/-- Computing and storing a value tracks the value, if only right values come out. -/
theorem tracks_remember
    (hc : Tracks (fun s : Memo κ ν × τ => Sound right s.1) fault base compute p)
    (fixed : ∀ items v, (∃ enough, ∀ n, enough ≤ n → p n = ⟨items, .ok v⟩) → right key v) :
    Tracks (fun s : Memo κ ν × τ => Sound right s.1) fault base
      (remember refusal key compute) p := by
  intro s hs
  obtain ⟨kept, faults, above, enough, below⟩ := hc s hs
  rcases run : compute s with ⟨⟨items, e | v⟩, m, t⟩
  · -- Nothing is stored after a fault, but the memo may have changed meanwhile.
    have same : remember refusal key compute s = compute s := by simp [remember, run]
    rw [same]
    exact ⟨kept, faults, above, enough, below⟩
  · rw [run] at kept above below faults
    have hv : right key v := fixed items v ⟨enough, fun n hn => (below n hn).2 v rfl⟩
    obtain ⟨m', stored, sound⟩ := kept.store hv
    have same : remember refusal key compute s = (⟨items, .ok v⟩, (m', t)) := by
      simp [remember, run, stored]
    rw [same]
    exact ⟨sound, fun _ h => (nomatch h), above, enough, below⟩

/-- A value that is fetched from a sound memo tracks the value that would be computed. -/
theorem tracks_fetch [LawfulBEq κ]
    (hc : Tracks (fun s : Memo κ ν × τ => Sound right s.1) fault base compute p)
    (grows : ∀ m n, m ≤ n → (p m).Precedes (p n))
    (fixed : ∀ items v, (∃ enough, ∀ n, enough ≤ n → p n = ⟨items, .ok v⟩) → right key v)
    (reached : ∀ v, right key v → ∃ enough, ∀ n, enough ≤ n → p n = .done v) :
    Tracks (fun s : Memo κ ν × τ => Sound right s.1) fault base
      (fetch refusal key compute) p := by
  rintro ⟨m, t⟩ hs
  rcases look : m.lookUp key with ⟨v | v, m'⟩
  · have miss : fetch refusal key compute (m, t) = remember refusal key compute (m', t) := by
      simp [fetch, look]
    have sound : Sound right m' := by simpa [look] using hs.lookUp key
    rw [miss]
    exact tracks_remember hc fixed (m', t) sound
  · have hit : fetch refusal key compute (m, t) = (.done v, (m', t)) := by
      simp [fetch, look, Outcome.done]
    have sound : Sound right m' := by simpa [look] using hs.lookUp key
    -- A hit may know more than a computation at `base` finds out, but never anything else.
    obtain ⟨enough, known⟩ := reached v (hs.found (by rw [look]))
    rw [hit]
    refine ⟨sound, fun _ h => ?_, ?_, enough, fun n hn => ?_⟩
    · cases h
    · have later := grows base (max base enough) (Nat.le_max_left _ _)
      rwa [known _ (Nat.le_max_right _ _)] at later
    · rw [known n hn]
      exact .refl _

end

end SchemaDrift.Memo
