/-!
# Finite maps

A finite map is kept as a list of entries with pairwise distinct keys.

* `Assoc.get?`, `Assoc.insert`, `Assoc.erase`, `Assoc.filterKeys`: the operations.
* `get?_insert`, `get?_erase`, `get?_filterKeys`: what they do to the view `get?`.
-/

namespace NullPath

/-- A finite map as a list of entries.  The first entry of a key counts. -/
structure Assoc (κ α : Type) where
  entries : List (κ × α)
  deriving DecidableEq

namespace Assoc

variable {κ α : Type} [DecidableEq κ]

/-- The map without entries. -/
def empty : Assoc κ α :=
  ⟨[]⟩

/-- The value at a key. -/
def get? (m : Assoc κ α) (k : κ) : Option α :=
  (m.entries.find? fun e => e.1 = k).map Prod.snd

/-- The map without a key. -/
def erase (m : Assoc κ α) (k : κ) : Assoc κ α :=
  ⟨m.entries.filter fun e => e.1 ≠ k⟩

/-- The map with a value set at a key. -/
def insert (m : Assoc κ α) (k : κ) (a : α) : Assoc κ α :=
  ⟨(k, a) :: (m.erase k).entries⟩

/-- The entries whose keys satisfy a condition. -/
def filterKeys (m : Assoc κ α) (p : κ → Bool) : Assoc κ α :=
  ⟨m.entries.filter fun e => p e.1⟩

@[simp] theorem get?_empty (k : κ) : (empty : Assoc κ α).get? k = none := rfl

theorem find?_filter_key (es : List (κ × α)) (p : κ → Bool) (k : κ) :
    (es.filter fun e => p e.1).find? (fun e => e.1 = k) =
      if p k then es.find? (fun e => e.1 = k) else none := by
  induction es with
  | nil => simp
  | cons e es ih =>
    by_cases hp : p e.1 = true
    · by_cases hk : e.1 = k
      · subst hk
        simp [hp]
      · simp [hp, hk, ih]
    · by_cases hk : e.1 = k
      · subst hk
        simp [hp, ih]
      · simp [hp, hk, ih]

theorem get?_filterKeys (m : Assoc κ α) (p : κ → Bool) (k : κ) :
    (m.filterKeys p).get? k = if p k then m.get? k else none := by
  simp only [get?, filterKeys, find?_filter_key]
  split <;> rfl

theorem get?_erase (m : Assoc κ α) (k k' : κ) :
    (m.erase k).get? k' = if k' = k then none else m.get? k' := by
  have := get?_filterKeys m (fun i => decide (i ≠ k)) k'
  simp only [filterKeys] at this
  simp only [erase, this]
  by_cases h : k' = k <;> simp [h]

theorem get?_insert (m : Assoc κ α) (k k' : κ) (a : α) :
    (m.insert k a).get? k' = if k' = k then some a else m.get? k' := by
  by_cases h : k' = k
  · subst h
    simp [get?, insert]
  · have h' : ¬k = k' := fun e => h e.symm
    have := get?_erase m k k'
    simp only [get?, insert] at this ⊢
    simp [h, h', this]

variable {m : Assoc κ α} {k k' : κ} {a b : α}

theorem get?_filterKeys_eq_some {p : κ → Bool} :
    (m.filterKeys p).get? k = some a ↔ p k = true ∧ m.get? k = some a := by
  rw [get?_filterKeys, Option.ite_none_right_eq_some]

theorem get?_erase_eq_some : (m.erase k).get? k' = some a ↔ k' ≠ k ∧ m.get? k' = some a := by
  rw [get?_erase, Option.ite_none_left_eq_some]

theorem get?_of_insert (h : (m.insert k a).get? k' = some b) :
    (k' = k ∧ b = a) ∨ m.get? k' = some b := by
  rw [get?_insert] at h
  split at h
  · next hk => exact .inl ⟨hk, (Option.some.inj h).symm⟩
  · exact .inr h

end Assoc

end NullPath
