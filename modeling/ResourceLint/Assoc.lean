/-
Association lists in the order of their keys, each key once.

The order is given by a comparison.  `insert` replaces the value of a key
that is there; `insertNew` keeps it.
-/
namespace ResourceLint.Assoc

variable {κ α : Type}

/-- The value of a key. -/
def lookup? (cmp : κ → κ → Ordering) (key : κ) : List (κ × α) → Option α
  | [] => none
  | (k, value) :: more => if cmp key k == .eq then some value else lookup? cmp key more

/-- The list with this value for the key. -/
def insert (cmp : κ → κ → Ordering) (key : κ) (value : α) : List (κ × α) → List (κ × α)
  | [] => [(key, value)]
  | (k, old) :: more =>
    match cmp key k with
    | .lt => (key, value) :: (k, old) :: more
    | .eq => (k, value) :: more
    | .gt => (k, old) :: insert cmp key value more

/-- The list with this value for the key, where it had none. -/
def insertNew (cmp : κ → κ → Ordering) (key : κ) (value : α) : List (κ × α) → List (κ × α)
  | [] => [(key, value)]
  | (k, old) :: more =>
    match cmp key k with
    | .lt => (key, value) :: (k, old) :: more
    | .eq => (k, old) :: more
    | .gt => (k, old) :: insertNew cmp key value more

/-- The keys with one more among them. -/
def insertKey (cmp : κ → κ → Ordering) (key : κ) : List κ → List κ
  | [] => [key]
  | k :: more =>
    match cmp key k with
    | .lt => key :: k :: more
    | .eq => k :: more
    | .gt => k :: insertKey cmp key more

/-- The keys of a list, in order and each once. -/
def keySet (cmp : κ → κ → Ordering) (keys : List κ) : List κ :=
  keys.foldl (fun set key => insertKey cmp key set) []

end ResourceLint.Assoc
