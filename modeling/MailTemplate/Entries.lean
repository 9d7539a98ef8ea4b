/-!
# Entries in order

A list of pairs of a key and a value, in the order of the keys and with each key once, stands for a
finite map.

## Main definitions

* `Entries.find?`, `Entries.insert`, `Entries.erase`, `Entries.ofList` — the map's operations.
* `Entries.sorted` — pairs in any order, put into the order of their keys.

## Main results

* `Entries.find?_insert_self`, `Entries.find?_insert_of_ne` — what an insertion changes.
-/

namespace MailTemplate

namespace Entries

variable {α : Type}

/-- The value of a key. -/
def find? (key : String) : List (String × α) → Option α
  | [] => none
  | (k, a) :: rest => if k = key then some a else find? key rest

/-- Entries with a key set to a value, in the order of the keys. -/
def insert (key : String) (a : α) : List (String × α) → List (String × α)
  | [] => [(key, a)]
  | (k, b) :: rest =>
    if k = key then (key, a) :: rest
    else if key < k then (key, a) :: (k, b) :: rest
    else (k, b) :: insert key a rest

/-- Entries without a key. -/
def erase (key : String) (entries : List (String × α)) : List (String × α) :=
  entries.filter fun e => e.1 ≠ key

/-- The entries of a list, later ones replacing earlier ones. -/
def ofList (entries : List (String × α)) : List (String × α) :=
  entries.foldl (fun es (k, a) => insert k a es) []

/-- The entries of a list in the order of their keys, earlier ones replacing later ones. -/
def sorted (entries : List (String × α)) : List (String × α) :=
  entries.foldr (fun (k, a) es => insert k a es) []

theorem find?_insert_self (key : String) (a : α) (entries : List (String × α)) :
    find? key (insert key a entries) = some a := by
  induction entries with
  | nil => simp [insert, find?]
  | cons e rest ih =>
    obtain ⟨k, b⟩ := e
    simp only [insert]
    split
    · simp [find?]
    · split
      · simp [find?]
      · next h _ => simp [find?, h, ih]

theorem find?_insert_of_ne {key other : String} (h : key ≠ other) (a : α)
    (entries : List (String × α)) : find? other (insert key a entries) = find? other entries := by
  induction entries with
  | nil => simp [insert, find?, h]
  | cons e rest ih =>
    obtain ⟨k, b⟩ := e
    simp only [insert]
    split
    · next hk => subst hk; simp [find?, h]
    · split
      · simp [find?, h]
      · simp only [find?, ih]

end Entries

end MailTemplate
