/-! Lists kept in strictly increasing order: sets, and maps whose entries carry their keys. -/
namespace Stylebook.Ordered

variable {α β κ : Type}

/-- Puts an element in its place. One that is already there stays. -/
def insert (lt : α → α → Bool) (a : α) : List α → List α
  | [] => [a]
  | b :: bs =>
    if lt a b then a :: b :: bs
    else if lt b a then b :: insert lt a bs
    else b :: bs

/-- Equal elements are those that the order does not tell apart. -/
theorem mem_insert {lt : α → α → Bool} (h : ∀ a b, lt a b = false → lt b a = false → a = b) {a c : α}
    {bs : List α} : c ∈ insert lt a bs ↔ c = a ∨ c ∈ bs := by
  induction bs with
  | nil => simp [insert]
  | cons b bs ih =>
    simp only [insert]
    split
    · simp
    · next hab =>
      split
      · simp only [List.mem_cons, ih]
        grind
      · next hba =>
        have hb : a = b := h a b (by simpa using hab) (by simpa using hba)
        simp [hb]

def ofList (lt : α → α → Bool) (as : List α) : List α := as.foldl (fun s a => insert lt a s) []

/-- Puts an entry in the place of its key, instead of the entry with that key. -/
def put (lt : κ → κ → Bool) (key : β → κ) (b : β) : List β → List β
  | [] => [b]
  | c :: cs =>
    if lt (key b) (key c) then b :: c :: cs
    else if lt (key c) (key b) then c :: put lt key b cs
    else b :: cs

/-- Entries by their keys, the last of those with one key alone. -/
def ofEntries (lt : κ → κ → Bool) (key : β → κ) (bs : List β) : List β :=
  bs.foldl (fun s b => put lt key b s) []

/-- Entries by their keys. All are kept, and those with one key stay in the order they had. -/
def sortBy (lt : κ → κ → Bool) (key : β → κ) (bs : List β) : List β :=
  bs.mergeSort fun b c => !lt (key c) (key b)

/-- Words in the order of their characters' code points. -/
def word (a b : String) : Bool := a < b

/-- Pairs by the first component, then by the second. -/
def pair (ltα : α → α → Bool) (ltβ : β → β → Bool) (a b : α × β) : Bool :=
  ltα a.1 b.1 || (!ltα b.1 a.1 && ltβ a.2 b.2)

end Stylebook.Ordered
