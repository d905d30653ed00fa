/-!
Tables of items under names. Writing under a name that a table already has replaces its item, so
that each name occurs once.
-/

namespace TensorGraph

/-- Items under names, in the order in which the names were first written. -/
structure NameTable (α : Type) where
  entries : List (String × α)
  deriving DecidableEq, Repr

namespace NameTable

variable {α : Type}

def empty : NameTable α := ⟨[]⟩

instance : Inhabited (NameTable α) := ⟨empty⟩

def size (t : NameTable α) : Nat := t.entries.length

def get? (name : String) : List (String × α) → Option α
  | [] => none
  | (n, a) :: es => if n = name then some a else get? name es

def find? (t : NameTable α) (name : String) : Option α := get? name t.entries

def contains (t : NameTable α) (name : String) : Bool := (t.find? name).isSome

def put (name : String) (a : α) : List (String × α) → List (String × α)
  | [] => [(name, a)]
  | (n, b) :: es => if n = name then (name, a) :: es else (n, b) :: put name a es

def insert (t : NameTable α) (name : String) (a : α) : NameTable α := ⟨put name a t.entries⟩

def erase (t : NameTable α) (name : String) : NameTable α :=
  ⟨t.entries.filter fun e => e.1 ≠ name⟩

/-- A table of items, of which the last one under a name is kept. -/
def ofList (es : List (String × α)) : NameTable α :=
  es.foldl (fun t (name, a) => t.insert name a) empty

@[simp] theorem find?_empty (name : String) : (empty : NameTable α).find? name = none := rfl

theorem get?_put (name n : String) (a : α) (es : List (String × α)) :
    get? n (put name a es) = if n = name then some a else get? n es := by
  induction es with
  | nil => simp [put, get?, eq_comm]
  | cons e es ih =>
    obtain ⟨m, b⟩ := e
    by_cases hm : m = name
    · subst hm
      by_cases hn : n = m
      · simp [put, get?, hn]
      · simp [put, get?, hn, Ne.symm hn]
    · by_cases hn : m = n
      · subst hn
        simp [put, get?, hm]
      · simp [put, get?, hm, hn, ih]

@[simp] theorem find?_insert (t : NameTable α) (name n : String) (a : α) :
    (t.insert name a).find? n = if n = name then some a else t.find? n :=
  get?_put name n a t.entries

theorem get?_filter_ne (name n : String) (es : List (String × α)) :
    get? n (es.filter fun e => e.1 ≠ name) = if n = name then none else get? n es := by
  induction es with
  | nil => simp [get?]
  | cons e es ih =>
    obtain ⟨m, b⟩ := e
    by_cases hm : m = name
    · subst hm
      by_cases hn : n = m
      · simp_all
      · simp_all [get?, Ne.symm hn]
    · by_cases hn : m = n
      · subst hn
        simp [get?, hm]
      · simp_all [get?]

@[simp] theorem find?_erase (t : NameTable α) (name n : String) :
    (t.erase name).find? n = if n = name then none else t.find? n :=
  get?_filter_ne name n t.entries

end NameTable

end TensorGraph
