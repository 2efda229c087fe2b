/-!
# Values under keys

* `Keyed` : values under keys, in the order in which the keys were first set;
* `Keyed.get?`, `Keyed.has`, `Keyed.put`, `Keyed.remove` : its operations;
* `Keyed.putBy` : the same as `put` for keys of which different ones may count as one.

`get?_put` says what is found after a value is set; by `keys_put_of_has` and `keys_put_of_not_has` a
key keeps its place and a new one comes last.
-/

namespace ApiTypes

abbrev Keyed (κ α : Type) := List (κ × α)

namespace Keyed

variable {κ α : Type}

/-- Sets the value of a key: in the place of the first that counts as the same, or at the end. -/
def putBy (same : κ → κ → Bool) : Keyed κ α → κ → α → Keyed κ α
  | [], key, v => [(key, v)]
  | (k, w) :: rest, key, v =>
    if same k key then (k, v) :: rest else (k, w) :: putBy same rest key v

variable [DecidableEq κ]

def get? : Keyed κ α → κ → Option α
  | [], _ => none
  | (k, v) :: rest, key => if k = key then some v else get? rest key

def has (m : Keyed κ α) (key : κ) : Bool := (get? m key).isSome

/-- Sets the value of a key: in its place if the key is there, at the end if it is not. -/
def put (m : Keyed κ α) (key : κ) (v : α) : Keyed κ α := putBy (fun a b => a = b) m key v

def remove (m : Keyed κ α) (key : κ) : Keyed κ α := m.filter (·.1 ≠ key)

theorem get?_put (m : Keyed κ α) (key k : κ) (v : α) :
    get? (put m key v) k = if key = k then some v else get? m k := by
  induction m with
  | nil => simp [put, putBy, get?]
  | cons e rest ih =>
    obtain ⟨a, w⟩ := e
    simp only [put] at ih
    by_cases h : a = key
    · subst h
      by_cases hk : a = k <;> simp [put, putBy, get?, hk]
    · by_cases hk : a = k
      · subst hk
        simp [put, putBy, get?, h, Ne.symm h]
      · simp [put, putBy, get?, h, hk, ih]

theorem mem_of_get? {m : Keyed κ α} {key : κ} {v : α} (h : get? m key = some v) :
    (key, v) ∈ m := by
  induction m with
  | nil => cases h
  | cons e rest ih =>
    obtain ⟨k, w⟩ := e
    rw [get?] at h
    split at h
    · rename_i hkey
      obtain rfl := Option.some.inj h
      exact hkey ▸ List.mem_cons_self ..
    · exact List.mem_cons_of_mem _ (ih h)

theorem mem_keys_of_get? {m : Keyed κ α} {key : κ} {v : α} (h : get? m key = some v) :
    key ∈ m.map Prod.fst :=
  List.mem_map.2 ⟨_, mem_of_get? h, rfl⟩

theorem exists_get? {m : Keyed κ α} {key : κ} (h : key ∈ m.map Prod.fst) :
    ∃ v, get? m key = some v := by
  induction m with
  | nil => cases h
  | cons e rest ih =>
    obtain ⟨k, w⟩ := e
    by_cases hk : k = key
    · exact ⟨w, by rw [get?, if_pos hk]⟩
    · rw [get?, if_neg hk]
      exact ih ((List.mem_cons.1 h).resolve_left (Ne.symm hk))

theorem keys_put_of_has {m : Keyed κ α} {key : κ} (h : has m key) (v : α) :
    (put m key v).map Prod.fst = m.map Prod.fst := by
  induction m with
  | nil => simp [has, get?] at h
  | cons e rest ih =>
    obtain ⟨a, w⟩ := e
    by_cases ha : a = key
    · simp [put, putBy, ha]
    · simp only [has, get?, ha, if_false] at h
      simpa [put, putBy, ha] using ih h

theorem keys_put_of_not_has {m : Keyed κ α} {key : κ} (h : has m key = false) (v : α) :
    (put m key v).map Prod.fst = m.map Prod.fst ++ [key] := by
  induction m with
  | nil => simp [put, putBy]
  | cons e rest ih =>
    obtain ⟨a, w⟩ := e
    by_cases ha : a = key
    · simp [has, get?, ha] at h
    · simp only [has, get?, ha, if_false] at h
      simpa [put, putBy, ha] using ih h

theorem get?_remove_self (m : Keyed κ α) (key : κ) : get? (remove m key) key = none := by
  induction m with
  | nil => rfl
  | cons e rest ih =>
    obtain ⟨a, w⟩ := e
    by_cases h : a = key
    · simpa [remove, h] using ih
    · simpa [remove, get?, h] using ih

theorem get?_remove_of_ne {key k : κ} (h : key ≠ k) (m : Keyed κ α) :
    get? (remove m key) k = get? m k := by
  induction m with
  | nil => rfl
  | cons e rest ih =>
    obtain ⟨a, w⟩ := e
    by_cases ha : a = key
    · subst ha
      simpa [remove, get?, h] using ih
    · by_cases hk : a = k
      · subst hk
        simp [remove, get?, ha]
      · simpa [remove, get?, ha, hk] using ih

end Keyed
end ApiTypes
