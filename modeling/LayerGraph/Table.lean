/-!
# Ordered tables

Entries under distinct keys, kept in ascending order of the keys. Putting an entry
under a key that is taken replaces the one that was there.
-/

set_option autoImplicit false

namespace LayerGraph

class KeyOrder (κ : Type) [LT κ] : Prop where
  irrefl : ∀ a : κ, ¬ a < a
  trans : ∀ {a b c : κ}, a < b → b < c → a < c
  connex : ∀ {a b : κ}, ¬ a < b → a ≠ b → b < a

instance : KeyOrder String where
  irrefl _ := Std.lt_irrefl
  trans := Std.lt_trans
  connex h hne := Std.lt_of_le_of_ne (Std.not_lt.1 h) (Ne.symm hne)

section

variable {κ α : Type} [LT κ] [DecidableEq κ] [∀ a b : κ, Decidable (a < b)]

def putEntry (key : κ) (value : α) : List (κ × α) → List (κ × α)
  | [] => [(key, value)]
  | entry :: rest =>
    if key < entry.1 then (key, value) :: entry :: rest
    else if key = entry.1 then (key, value) :: rest
    else entry :: putEntry key value rest

theorem mem_putEntry {key : κ} {value : α} {e : κ × α} {entries : List (κ × α)}
    (h : e ∈ putEntry key value entries) : e = (key, value) ∨ e ∈ entries := by
  induction entries with
  | nil => simpa [putEntry] using h
  | cons entry rest ih =>
    rw [putEntry] at h
    split at h
    · simpa using h
    · split at h
      · rcases List.mem_cons.1 h with h | h
        · exact .inl h
        · exact .inr (List.mem_cons_of_mem _ h)
      · rcases List.mem_cons.1 h with h | h
        · exact .inr (h ▸ List.mem_cons_self)
        · exact (ih h).imp_right (List.mem_cons_of_mem _)

theorem ordered_putEntry [KeyOrder κ] (key : κ) (value : α) {entries : List (κ × α)}
    (h : entries.Pairwise fun a b => a.1 < b.1) :
    (putEntry key value entries).Pairwise fun a b => a.1 < b.1 := by
  induction entries with
  | nil => simp [putEntry]
  | cons entry rest ih =>
    have hr := List.pairwise_cons.1 h
    rw [putEntry]
    split
    · rename_i hlt
      refine List.pairwise_cons.2 ⟨fun e he => ?_, h⟩
      rcases List.mem_cons.1 he with rfl | he
      · exact hlt
      · exact KeyOrder.trans hlt (hr.1 e he)
    · rename_i hge
      split
      · rename_i heq
        exact List.pairwise_cons.2 ⟨fun e he => heq ▸ hr.1 e he, hr.2⟩
      · rename_i hne
        refine List.pairwise_cons.2 ⟨fun e he => ?_, ih hr.2⟩
        rcases mem_putEntry he with rfl | he
        · exact KeyOrder.connex hge hne
        · exact hr.1 e he

end

structure Table (κ α : Type) [LT κ] where
  entries : List (κ × α)
  ordered : entries.Pairwise fun a b => a.1 < b.1

namespace Table

variable {κ α : Type} [LT κ]

def empty : Table κ α := ⟨[], .nil⟩

def size (t : Table κ α) : Nat := t.entries.length

def isEmpty (t : Table κ α) : Bool := t.entries.isEmpty

def keys (t : Table κ α) : List κ := t.entries.map (·.1)

variable [DecidableEq κ]

def find? (t : Table κ α) (key : κ) : Option α := t.entries.lookup key

def contains (t : Table κ α) (key : κ) : Bool := (t.find? key).isSome

def put [∀ a b : κ, Decidable (a < b)] [KeyOrder κ] (t : Table κ α) (key : κ) (value : α) :
    Table κ α :=
  ⟨putEntry key value t.entries, ordered_putEntry key value t.ordered⟩

end Table

end LayerGraph
